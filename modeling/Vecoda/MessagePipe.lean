import Mathlib.Data.Nat.Digits.Defs
import Mathlib.Data.List.Basic
import Mathlib.Tactic.Ring

/-!
# Message pipes and exact reading

A message pipe is the queue of its unread messages. A read takes at most the
bytes it asked for from the first message and leaves the remainder of that
message in front of the queue. `Takes` is the rule of readers that consume
whole messages and nothing else; `Splits` is the opposite outcome, in which
some message is cut, and it survives any further reading.
-/

set_option autoImplicit false

namespace Vecoda.MessagePipe

abbrev Bytes := List UInt8

def leBytes : ℕ → ℕ → Bytes
  | 0, _ => []
  | k+1, n => UInt8.ofNat (n % 256) :: leBytes k (n / 256)

def ofLE (bs : Bytes) : ℕ := Nat.ofDigits 256 (bs.map UInt8.toNat)

theorem leBytes_length (k n : ℕ) : (leBytes k n).length = k := by
  induction k generalizing n with
  | zero => rfl
  | succ k ih => simp [leBytes, ih]

theorem ofLE_leBytes (k n : ℕ) (h : n < 256^k) : ofLE (leBytes k n) = n := by
  induction k generalizing n with
  | zero =>
    have hn : n = 0 := by simpa using h
    simp [hn, leBytes, ofLE]
  | succ k ih =>
    have hq : n / 256 < 256^k := by
      rw [Nat.div_lt_iff_lt_mul (by norm_num), ← pow_succ]
      exact h
    have hr := ih (n / 256) hq
    have hd : (UInt8.ofNat (n % 256)).toNat = n % 256 := by
      rw [UInt8.toNat_ofNat_of_lt']
      exact Nat.mod_lt _ (by decide)
    simp only [ofLE, leBytes, List.map_cons, Nat.ofDigits_cons, hd] at *
    rw [hr]
    exact Nat.mod_add_div n 256

structure Port where
  pipe : List Bytes
  taken : List Bytes
  reads : ℕ

def Port.fresh (pipe : List Bytes) : Port := ⟨pipe,[],0⟩

inductive Stop where
  | raised
  | blocked
  deriving DecidableEq, Repr

abbrev Reading (α : Type) := StateT Port (Except Stop) α

def raise {α : Type} : Reading α := fun _ => .error .raised

structure Piece where
  data : Bytes
  more : Bool
  index : ℕ

def receive (n : ℕ) : Reading Piece := fun port =>
  match port.pipe with
  | [] => .error .blocked
  | m::rest => .ok (⟨m.take n,n < m.length,port.reads⟩,
      ⟨if n < m.length then m.drop n::rest else rest,port.taken ++ [m.take n],port.reads+1⟩)

variable {α β : Type}

/-- The reader consumes exactly the messages `ms`, each whole, and returns `a`. -/
def Takes (x : Reading α) (ms : List Bytes) (a : α) : Prop :=
  ∀ port rest, port.pipe = ms ++ rest → ∃ k, x port = .ok (a,⟨rest,port.taken ++ ms,k⟩)

def Extends (x : Reading α) : Prop :=
  ∀ port a port', x port = .ok (a,port') → ∃ ms, port'.taken = port.taken ++ ms

/-- After the messages `ms` the reader takes a proper part of `m` alone. -/
def Splits (x : Reading α) (ms : List Bytes) (m : Bytes) : Prop :=
  ∀ port rest a port', port.pipe = ms ++ m::rest → x port = .ok (a,port') →
    ∃ c more, c ≠ m ∧ port'.taken = port.taken ++ (ms ++ c::more)

/-- After the messages `ms` the reader stops. -/
def Stops (x : Reading α) (ms : List Bytes) : Prop :=
  ∀ port rest, port.pipe = ms ++ rest → ∃ e, x port = .error e

theorem bind_ok {x : Reading α} {f : α → Reading β} {port port' : Port} {b : β}
    (h : (x >>= f) port = .ok (b,port')) :
    ∃ a mid, x port = .ok (a,mid) ∧ f a mid = .ok (b,port') := by
  cases hx : x port with
  | error e => simp [bind, StateT.bind, Except.bind, hx] at h
  | ok r => exact ⟨r.1,r.2,rfl,by simpa [bind, StateT.bind, Except.bind, hx] using h⟩

theorem bind_of_ok {x : Reading α} {f : α → Reading β} {port mid : Port} {a : α}
    (h : x port = .ok (a,mid)) : (x >>= f) port = f a mid := by
  simp [bind, StateT.bind, Except.bind, h]

theorem takes_pure (a : α) : Takes (pure a) [] a := by
  intro port rest h
  rw [List.nil_append] at h
  subst h
  exact ⟨port.reads,by rw [List.append_nil]; rfl⟩

theorem takes_bind {x : Reading α} {f : α → Reading β} {ms ns : List Bytes} {a : α} {b : β}
    (hx : Takes x ms a) (hf : Takes (f a) ns b) : Takes (x >>= f) (ms ++ ns) b := by
  intro port rest h
  obtain ⟨k,hk⟩ := hx port (ns ++ rest) (by rw [h, List.append_assoc])
  obtain ⟨j,hj⟩ := hf ⟨ns ++ rest,port.taken ++ ms,k⟩ rest rfl
  exact ⟨j,by rw [bind_of_ok hk, hj, List.append_assoc]⟩

theorem takes_receive (m : Bytes) (n : ℕ) (h : m.length = n) (f : Piece → Reading β)
    (b : β) (ns : List Bytes) (hf : ∀ i, Takes (f ⟨m,false,i⟩) ns b) :
    Takes (receive n >>= f) (m::ns) b := by
  intro port rest hp
  have hr : receive n port =
      .ok (⟨m,false,port.reads⟩,⟨ns ++ rest,port.taken ++ [m],port.reads+1⟩) := by
    simp [receive, hp, ← h]
  obtain ⟨j,hj⟩ := hf port.reads ⟨ns ++ rest,port.taken ++ [m],port.reads+1⟩ rest rfl
  exact ⟨j,by rw [bind_of_ok hr, hj]; simp⟩

theorem extends_pure (a : α) : Extends (pure a) := by
  rintro port b port' h
  cases h
  exact ⟨[],by simp⟩

theorem extends_raise : Extends (raise : Reading α) := by
  intro port a port' h
  cases h

theorem extends_bind {x : Reading α} {f : α → Reading β} (hx : Extends x)
    (hf : ∀ a, Extends (f a)) : Extends (x >>= f) := by
  intro port b port' h
  obtain ⟨a,mid,ha,hb⟩ := bind_ok h
  obtain ⟨ms,hms⟩ := hx port a mid ha
  obtain ⟨ns,hns⟩ := hf a mid b port' hb
  exact ⟨ms ++ ns,by rw [hns, hms, List.append_assoc]⟩

theorem extends_receive (n : ℕ) : Extends (receive n) := by
  intro port a port' h
  unfold receive at h
  split at h
  · cases h
  · cases h
    exact ⟨_,rfl⟩

theorem splits_receive (m : Bytes) (n : ℕ) (h : n < m.length) : Splits (receive n) [] m := by
  intro port rest a port' hp hx
  simp only [receive, hp, List.nil_append, Except.ok.injEq, Prod.mk.injEq] at hx
  refine ⟨m.take n,[],fun he => ?_,by rw [← hx.2]; rfl⟩
  have hl := congrArg List.length he
  simp only [List.length_take] at hl
  omega

theorem splits_after {x : Reading α} {f : α → Reading β} {ms ns : List Bytes} {a : α} {m : Bytes}
    (hx : Takes x ms a) (hf : Splits (f a) ns m) : Splits (x >>= f) (ms ++ ns) m := by
  intro port rest b port' hp h
  obtain ⟨k,hk⟩ := hx port (ns ++ m::rest) (by rw [hp, List.append_assoc])
  rw [bind_of_ok hk] at h
  obtain ⟨c,more,hc,ht⟩ := hf _ rest b port' rfl h
  exact ⟨c,more,hc,by rw [ht]; simp⟩

/-- Nothing read later mends a message that has been cut. -/
theorem splits_bind {x : Reading α} {f : α → Reading β} {ms : List Bytes} {m : Bytes}
    (hx : Splits x ms m) (hf : ∀ a, Extends (f a)) : Splits (x >>= f) ms m := by
  intro port rest b port' hp h
  obtain ⟨a,mid,ha,hb⟩ := bind_ok h
  obtain ⟨c,more,hc,ht⟩ := hx port rest a mid hp ha
  obtain ⟨ns,hns⟩ := hf a mid b port' hb
  exact ⟨c,more ++ ns,hc,by rw [hns, ht]; simp⟩

theorem stops_after {x : Reading α} {f : α → Reading β} {ms ns : List Bytes} {a : α}
    (hx : Takes x ms a) (hf : Stops (f a) ns) : Stops (x >>= f) (ms ++ ns) := by
  intro port rest hp
  obtain ⟨k,hk⟩ := hx port (ns ++ rest) (by rw [hp, List.append_assoc])
  rw [bind_of_ok hk]
  exact hf _ rest rfl

theorem stops_bind {x : Reading α} {f : α → Reading β} {ms : List Bytes} (hx : Stops x ms) :
    Stops (x >>= f) ms := by
  intro port rest hp
  obtain ⟨e,he⟩ := hx port rest hp
  exact ⟨e,by simp [bind, StateT.bind, Except.bind, he]⟩

theorem splits_not_exact {x : Reading α} {ms ns : List Bytes} {m : Bytes} (hx : Splits x ms m)
    (port : Port) (rest : List Bytes) (hp : port.pipe = ms ++ m::(ns ++ rest)) (a : α)
    (port' : Port) (h : x port = .ok (a,port')) : port'.taken ≠ port.taken ++ (ms ++ m::ns) := by
  intro ht
  obtain ⟨c,more,hc,hs⟩ := hx port (ns ++ rest) a port' hp h
  rw [ht] at hs
  simp only [List.append_cancel_left_eq, List.cons.injEq] at hs
  exact hc hs.1.symm

end Vecoda.MessagePipe

import Mathlib.Data.List.Basic
import Mathlib.Data.List.TakeDrop
import Mathlib.Data.Int.Notation
import Mathlib.Tactic.Ring

/-!
# The stack of the Lua API

A stack lists its values from the bottom. A positive index counts from the
bottom, a negative one from the top; what a position without a value holds is
`nil`. `pcallSeeing` is the protected call: the message handler is what its index
holds when the error is raised. It is called on the error, and again on each
error of its own, until it returns or the library gives up.
-/

set_option autoImplicit false

namespace Vecoda.LuaStack

variable {α : Type}

inductive Status where
  | ok
  | errRun
  | errErr
  deriving DecidableEq, Repr

inductive Result (α : Type) where
  | returns (vs : List α)
  | raises (e : α)

def position (s : List α) (index : ℤ) : ℕ :=
  if 0 < index then (index-1).toNat else (s.length+index).toNat

def value (nil : α) (s : List α) (index : ℤ) : α := s.getD (position s index) nil

def push (s : List α) (v : α) : List α := s ++ [v]

def pushvalue (nil : α) (s : List α) (index : ℤ) : List α := push s (value nil s index)

def pop (s : List α) (n : ℕ) : List α := s.take (s.length-n)

def insert (nil : α) (s : List α) (index : ℤ) : List α :=
  s.dropLast.insertIdx (position s index) (s.getLastD nil)

def remove (s : List α) (index : ℤ) : List α := s.eraseIdx (position s index)

def replaceTop (nil : α) (s : List α) (f : α → α) : List α := push s.dropLast (f (s.getLastD nil))

def adjust (nil : α) (nresults : Option ℕ) (vs : List α) : List α :=
  match nresults with
  | none => vs
  | some n => vs.takeD n nil

/-- What a protected call needs of the language: the value of a missing position, what can be
called as a message handler, the further calls there is room for while one fails, and what is
left when there is none. A further call is on the error of the one before, or on the error that
the library raises instead. `frame` is what a call has on the stack, from its function on, when
it raises. -/
structure Host (α : Type) where
  nil : α
  handles : α → Bool
  again : List (Option α)
  frame : α → List α → List α
  errErr : α → α

section Pcall

variable (host : Host α) (call : α → List α → Option (Result α))

/-- The message handler is run on the error, and on each error of its own. -/
def handling (h : α) : List (Option α) → α → Option (Status × α)
  | [], e =>
    match call h [e] with
    | none => none
    | some (.returns vs) => some (.errRun,vs.headD host.nil)
    | some (.raises x) => some (.errErr,host.errErr x)
  | instead::again, e =>
    match call h [e] with
    | none => none
    | some (.returns vs) => some (.errRun,vs.headD host.nil)
    | some (.raises x) => handling h again (instead.getD x)

def handled (base : List α) (h e : α) : Option (Status × List α) :=
  if host.handles h then (handling host call h host.again e).map (fun r => (r.1,push base r.2))
  else some (.errErr,push base (host.errErr e))

def handlerOf (s : List α) (nargs : ℕ) (errfunc : ℤ) : α :=
  (pop s (nargs+1) ++ host.frame (value host.nil s (-(nargs+1))) (s.drop (s.length-nargs))).getD
    (position s errfunc) host.nil

def pcallSeeing (seen : α → α) (s : List α) (nargs : ℕ) (nresults : Option ℕ) (errfunc : ℤ) :
    Option (Status × List α) :=
  let base := pop s (nargs+1)
  match call (value host.nil s (-(nargs+1))) (s.drop (s.length-nargs)) with
  | none => none
  | some (.returns vs) => some (.ok,base ++ adjust host.nil nresults vs)
  | some (.raises e) =>
    if errfunc = 0 then some (.errRun,push base (seen e))
    else handled host call base (handlerOf host s nargs errfunc) (seen e)

def pcall : List α → ℕ → Option ℕ → ℤ → Option (Status × List α) := pcallSeeing host call id

end Pcall

section Positions

variable (nil v w : α) (s base top : List α)

@[simp] theorem value_top : value nil (s ++ [v]) (-1) = v := by
  simp [value, position]

@[simp] theorem value_below_top : value nil (s ++ [v,w]) (-2) = v := by
  have hp : position (s ++ [v,w]) (-2) = s.length := by simp [position]
  rw [value, hp]
  simp

theorem position_above (v : α) : position (base ++ v :: top) (base.length+1) = base.length := by
  simp [position]

theorem insertIdx_length : (base ++ top).insertIdx base.length v = base ++ v :: top := by
  induction base with
  | nil => exact List.insertIdx_zero
  | cons w base ih => simpa using ih

theorem insert_below : insert nil (base ++ top ++ [v]) (base.length+1) = base ++ v :: top := by
  have hp : position (base ++ top ++ [v]) (base.length+1) = base.length := by simp [position]
  rw [insert, hp, List.dropLast_concat, List.getLastD_concat, insertIdx_length]

theorem insert_below_top : insert nil (s ++ [v,w]) (-2) = s ++ [w,v] := by
  have hp : position (s ++ [v,w]) (-2) = s.length := by simp [position]
  have hdrop : (s ++ [v,w]).dropLast = s ++ [v] := by simp
  have hlast : (s ++ [v,w]).getLastD nil = w := by simp
  rw [insert, hp, hdrop, hlast, insertIdx_length]

theorem remove_above : remove (base ++ v :: top) (base.length+1) = base ++ top := by
  rw [remove, position_above, List.eraseIdx_append_of_length_le le_rfl, Nat.sub_self]
  rfl

theorem value_above : value nil (base ++ v :: top) (base.length+1) = v := by
  rw [value, position_above]
  simp

theorem replaceTop_push (f : α → α) : replaceTop nil (push s v) f = push s (f v) := by
  simp [replaceTop, push]

end Positions

end Vecoda.LuaStack

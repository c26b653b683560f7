import Vecoda.LuaStack
import Vecoda.MessagePipe

/-!
# Protected calls

`DebugBackend::Call` puts a closure of `StaticErrorHandler` below the function
of a protected call, with the program's own message handler as its upvalue.
`ErrorHandler` tells the debugger of the error and calls the handler in a
protected call of its own, so that one that fails is not called again on its own
error. The stop in the debugger is over when it goes on.
-/

set_option autoImplicit false

namespace Vecoda.ProtectedCall
open MessagePipe (Bytes)
open LuaStack

inductive Value where
  | nil
  | boolean (b : Bool)
  | number (bits : UInt64)
  | string (s : Bytes)
  | table (id : ℕ)
  | function (id : ℕ)
  | userdata (id : ℕ)
  | lightuserdata (address : ℕ)
  | thread (id : ℕ)
  | errorHandler (upvalue : Value)
  deriving DecidableEq

def isErrorHandler : Value → Bool
  | .errorHandler _ => true
  | _ => false

/-- The program and its Lua: how numbers are written, what the calls of its values come to and
have on the stack when they raise, what it takes as a message handler, and what becomes of one
that fails. `registered` says that the state is in m_stateToVm. -/
structure Program where
  format : UInt64 → Bytes
  run : Value → List Value → Result Value
  frame : Value → List Value → List Value
  frame_plain : ∀ f args, ∀ v ∈ frame f args, isErrorHandler v = false
  handles : Value → Bool
  handles_nil : handles .nil = false
  again : List (Option Value)
  errErr : Value → Value
  registered : Bool

section Call

variable (p : Program)

def tostring : Value → Value
  | .number bits => .string (p.format bits)
  | v => v

def host : Host Value where
  nil := .nil
  handles v := isErrorHandler v || p.handles v
  again := p.again
  frame := p.frame
  errErr := p.errErr

def errorHandler (callUpvalue : List Value → Option (Result Value)) (upvalue : Value) (s : List Value) :
    Option (List Value) :=
  let s := push (replaceTop .nil s (tostring p)) upvalue
  if value .nil s (-1) ≠ .nil then
    (pcall (host p) (fun _ args => callUpvalue args) (pushvalue .nil s (-2)) 1 (some 1) 0).map Prod.snd
  else some (pushvalue .nil (pop s 1) (-1))

def call : Value → List Value → Option (Result Value)
  | .errorHandler upvalue, args =>
    if p.registered then
      (errorHandler p (call upvalue) upvalue args).map (fun s => .returns [value .nil s (-1)])
    else none
  | .nil, args => some (p.run .nil args)
  | .boolean b, args => some (p.run (.boolean b) args)
  | .number bits, args => some (p.run (.number bits) args)
  | .string s, args => some (p.run (.string s) args)
  | .table id, args => some (p.run (.table id) args)
  | .function id, args => some (p.run (.function id) args)
  | .userdata id, args => some (p.run (.userdata id) args)
  | .lightuserdata address, args => some (p.run (.lightuserdata address) args)
  | .thread id, args => some (p.run (.thread id) args)

variable (s : List Value) (nargs : ℕ) (nresults : Option ℕ) (errorfunc : ℤ)

/-- The handler is passed on when it, or the value on the top, is the debugger's own. -/
def passedOn : Bool :=
  isErrorHandler (value .nil s (-1)) || (errorfunc ≠ 0 && isErrorHandler (value .nil s errorfunc))

def luaPcall : Option (Status × List Value) := pcall (host p) (call p) s nargs nresults errorfunc

def debugCall : Option (Status × List Value) :=
  if passedOn s errorfunc then luaPcall p s nargs nresults errorfunc
  else if nargs+1 ≤ s.length then
    let s := if errorfunc ≠ 0 then pushvalue .nil s errorfunc else push s .nil
    let s := replaceTop .nil s .errorHandler
    let handler : ℤ := s.length-(nargs+1)
    let s := insert .nil s handler
    (luaPcall p s nargs nresults handler).map (fun r => (r.1,remove r.2 handler))
  else luaPcall p s nargs nresults errorfunc

def intercepted : Bool := !passedOn s errorfunc && nargs+1 ≤ s.length

/-- The call of the program, but that a number it raises is seen as `lua_tostring` converts it
where the debugger has looked at it. -/
def expected : Option (Status × List Value) :=
  if intercepted s nargs errorfunc then
    pcallSeeing (host p) (call p) (tostring p) s nargs nresults errorfunc
  else luaPcall p s nargs nresults errorfunc

def Transparent : Prop := debugCall p s nargs nresults errorfunc = expected p s nargs nresults errorfunc

def outcome : Option (Result Value) :=
  call p (value .nil s (-(nargs+1))) (s.drop (s.length-nargs))

/-- The handler comes to return a value, for the error or for an error of its own. -/
inductive Settles (h : Value) : List (Option Value) → Value → Value → Prop where
  | returns {again : List (Option Value)} {e : Value} {vs : List Value} :
      p.run h [e] = .returns vs → Settles h again e (vs.headD .nil)
  | raises {instead : Option Value} {again : List (Option Value)} {e x v : Value} :
      p.run h [e] = .raises x → Settles h again (instead.getD x) v → Settles h (instead::again) e v

def answered (h e : Value) : Value :=
  if h = .nil then tostring p e
  else match p.run h [tostring p e] with
    | .returns vs => vs.headD .nil
    | .raises x => x

/-- An error finds the state registered, and no handler, or one that comes to return what its
first call gives. -/
def Handled (e : Value) : Prop :=
  p.registered = true ∧ (errorfunc = 0 ∨
    (p.handles (handlerOf (host p) s nargs errorfunc) = true ∧
      Settles p (handlerOf (host p) s nargs errorfunc) p.again (tostring p e)
        (answered p (value .nil s errorfunc) e)))

end Call

section Transparency

variable {p : Program} {s : List Value} {nargs : ℕ} {nresults : Option ℕ} {errorfunc : ℤ}

theorem call_run {v : Value} (h : isErrorHandler v = false) (args : List Value) :
    call p v args = some (p.run v args) := by
  cases v with
  | errorHandler upvalue => cases h
  | _ => rfl

/-- The handler that `ErrorHandler` calls, or the error itself. -/
theorem errorHandler_nil (callUpvalue : List Value → Option (Result Value)) (e : Value) :
    errorHandler p callUpvalue .nil [e] = some [tostring p e,tostring p e] := by
  simp [errorHandler, replaceTop, push, pushvalue, pop, value, position]

theorem errorHandler_calls {callUpvalue : List Value → Option (Result Value)} {upvalue e : Value}
    (hu : upvalue ≠ .nil) : errorHandler p callUpvalue upvalue [e] =
      (callUpvalue [tostring p e]).map (fun
        | .returns vs => [tostring p e,vs.headD .nil]
        | .raises x => [tostring p e,x]) := by
  have hstack : push (replaceTop .nil [e] (tostring p)) upvalue = [tostring p e,upvalue] := rfl
  have htop : value .nil [tostring p e,upvalue] (-1) = upvalue := value_top .nil upvalue [tostring p e]
  have hpush : pushvalue .nil [tostring p e,upvalue] (-2) = [tostring p e,upvalue,tostring p e] := rfl
  rw [errorHandler, hstack, htop, if_pos hu, hpush, pcall, pcallSeeing]
  have hargs : [tostring p e,upvalue,tostring p e].drop ([tostring p e,upvalue,tostring p e].length-1) =
    [tostring p e] := rfl
  have hbase : pop [tostring p e,upvalue,tostring p e] (1+1) = [tostring p e] := rfl
  rw [hargs, hbase]
  cases callUpvalue [tostring p e] with
  | none => rfl
  | some r =>
    cases r with
    | returns vs => cases vs <;> rfl
    | raises x => rfl

theorem call_errorHandler {upvalue : Value} (hu : isErrorHandler upvalue = false)
    (hr : p.registered = true) (e : Value) :
    call p (.errorHandler upvalue) [e] = some (.returns [answered p upvalue e]) := by
  rw [call, if_pos hr, answered]
  by_cases hnil : upvalue = .nil
  · subst hnil
    rw [errorHandler_nil]
    rfl
  · rw [errorHandler_calls hnil, call_run hu, if_neg hnil]
    cases p.run upvalue [tostring p e] <;> rfl

theorem handling_crashed {h e : Value} {again : List (Option Value)} (hc : call p h [e] = none) :
    handling (host p) (call p) h again e = none := by
  cases again <;> rw [handling, hc]

theorem handling_returned {h e v : Value} {again : List (Option Value)}
    (hc : call p h [e] = some (.returns [v])) :
    handling (host p) (call p) h again e = some (.errRun,v) := by
  cases again <;> rw [handling, hc] <;> rfl

/-- The stack of a call: what is below it, the function and its arguments. -/
theorem stack_split (h : nargs+1 ≤ s.length) :
    ∃ base f args, s = base ++ f::args ∧ args.length = nargs := by
  have hlen : s.length-(nargs+1) < s.length := by omega
  refine ⟨s.take (s.length-(nargs+1)),s[s.length-(nargs+1)],s.drop (s.length-(nargs+1)+1),?_,?_⟩
  · rw [List.cons_getElem_drop_succ, List.take_append_drop]
  · rw [List.length_drop]
    omega

theorem pop_call (base args : List Value) (f : Value) : pop (base ++ f::args) (args.length+1) = base := by
  simp [pop]

theorem function_call (base args : List Value) (f : Value) :
    value .nil (base ++ f::args) (-(args.length+1)) = f := by
  have hp : position (base ++ f::args) (-(args.length+1)) = base.length := by
    rw [position, if_neg (by omega), List.length_append, List.length_cons]
    omega
  rw [value, hp]
  simp

theorem args_call (base args : List Value) (f : Value) :
    (base ++ f::args).drop ((base ++ f::args).length-args.length) = args := by
  have hlen : (base ++ f::args).length-args.length = base.length+1 := by
    simp
    omega
  rw [hlen, List.drop_append]
  simp

/-- A protected call on a stack that is given by its parts. -/
theorem pcallSeeing_parts (seen : Value → Value) (base args : List Value) (f : Value) :
    pcallSeeing (host p) (call p) seen (base ++ f::args) args.length nresults errorfunc =
      match call p f args with
      | none => none
      | some (.returns vs) => some (.ok,base ++ adjust .nil nresults vs)
      | some (.raises e) =>
        if errorfunc = 0 then some (.errRun,push base (seen e))
        else handled (host p) (call p) base (handlerOf (host p) (base ++ f::args) args.length errorfunc)
          (seen e) := by
  have hfunction : value (host p).nil (base ++ f::args) (-(args.length+1)) = f :=
    function_call base args f
  rw [pcallSeeing, pop_call, args_call, hfunction]
  cases call p f args with
  | none => rfl
  | some r => cases r <;> rfl

/-- With the debugger's handler below the function. -/
theorem intercepted_call (base args : List Value) (f upvalue : Value)
    (hu : isErrorHandler upvalue = false) :
    (luaPcall p (base ++ Value.errorHandler upvalue :: f :: args) args.length nresults (base.length+1)).map
      (fun r => (r.1,remove r.2 (base.length+1))) =
      match call p f args with
      | none => none
      | some (.returns vs) => some (.ok,base ++ adjust .nil nresults vs)
      | some (.raises e) =>
        if p.registered then some (.errRun,push base (answered p upvalue e)) else none := by
  have hs : base ++ Value.errorHandler upvalue :: f :: args =
    (base ++ [Value.errorHandler upvalue]) ++ f :: args := by simp
  have hremove (top : List Value) : remove (base ++ [Value.errorHandler upvalue] ++ top) (base.length+1) =
      base ++ top := by
    rw [List.append_assoc]
    exact remove_above _ _ _
  have hvalue : handlerOf (host p) (base ++ Value.errorHandler upvalue :: f :: args) args.length
      (base.length+1) = .errorHandler upvalue := by
    have hbase : pop (base ++ Value.errorHandler upvalue :: f :: args) (args.length+1) =
        base ++ [Value.errorHandler upvalue] := by
      rw [hs, pop_call]
    rw [handlerOf, hbase, position_above, List.append_assoc]
    simp
  rw [luaPcall, pcall, hs, pcallSeeing_parts, ← hs, hvalue]
  cases call p f args with
  | none => rfl
  | some r =>
    cases r with
    | returns vs => exact congrArg (fun s => some (Status.ok,s)) (hremove _)
    | raises e =>
      dsimp only
      rw [if_neg (by omega), handled,
        if_pos (show (host p).handles (.errorHandler upvalue) = true from rfl)]
      cases hr : p.registered with
      | false =>
        have hcall : call p (.errorHandler upvalue) [id e] = none := by
          rw [call, hr]
          rfl
        rw [handling_crashed hcall]
        rfl
      | true =>
        rw [id, handling_returned (call_errorHandler hu hr e)]
        exact congrArg (fun s => some (Status.errRun,s)) (hremove _)

def upvalue (s : List Value) (errorfunc : ℤ) : Value :=
  if errorfunc = 0 then .nil else value .nil s errorfunc

theorem debugCall_intercepted (base args : List Value) (f : Value)
    (h : passedOn (base ++ f::args) errorfunc = false) :
    debugCall p (base ++ f::args) args.length nresults errorfunc =
      match call p f args with
      | none => none
      | some (.returns vs) => some (.ok,base ++ adjust .nil nresults vs)
      | some (.raises e) =>
        if p.registered then
          some (.errRun,push base (answered p (upvalue (base ++ f::args) errorfunc) e))
        else none := by
  have hpush : (if errorfunc ≠ 0 then pushvalue .nil (base ++ f::args) errorfunc
      else push (base ++ f::args) .nil) = push (base ++ f::args) (upvalue (base ++ f::args) errorfunc) := by
    unfold upvalue pushvalue
    by_cases h0 : errorfunc = 0
    · rw [if_neg (not_not.mpr h0), if_pos h0]
    · rw [if_pos h0, if_neg h0]
  have hu : isErrorHandler (upvalue (base ++ f::args) errorfunc) = false := by
    unfold upvalue
    by_cases h0 : errorfunc = 0
    · rw [if_pos h0]
      rfl
    · rw [if_neg h0]
      simp only [passedOn, Bool.or_eq_false_iff, Bool.and_eq_false_iff, decide_eq_false_iff_not,
        not_not] at h
      exact h.2.resolve_left h0
  have hlen : args.length+1 ≤ (base ++ f::args).length := by simp
  generalize upvalue (base ++ f::args) errorfunc = u at *
  have hindex :
      ((push (base ++ f::args) (Value.errorHandler u)).length : ℤ)-(args.length+1) =
        base.length+1 := by
    rw [push, List.length_append, List.length_append, List.length_cons]
    simp
    omega
  have hinsert : insert .nil (push (base ++ f::args) (Value.errorHandler u)) (base.length+1) =
      base ++ Value.errorHandler u :: f :: args := insert_below .nil _ base (f::args)
  rw [debugCall, h, if_neg Bool.false_ne_true, if_pos hlen]
  dsimp only
  rw [hpush, replaceTop_push, hindex, hinsert]
  exact intercepted_call base args f u hu

theorem expected_intercepted (base args : List Value) (f : Value)
    (h : passedOn (base ++ f::args) errorfunc = false) :
    expected p (base ++ f::args) args.length nresults errorfunc =
      match call p f args with
      | none => none
      | some (.returns vs) => some (.ok,base ++ adjust .nil nresults vs)
      | some (.raises e) =>
        if errorfunc = 0 then some (.errRun,push base (tostring p e))
        else handled (host p) (call p) base (handlerOf (host p) (base ++ f::args) args.length errorfunc)
          (tostring p e) := by
  have hi : intercepted (base ++ f::args) args.length errorfunc = true := by
    simp [intercepted, h]
  rw [expected, if_pos hi]
  exact pcallSeeing_parts _ base args f

theorem handling_isSome {h : Value} (hh : isErrorHandler h = false) (again : List (Option Value))
    (e : Value) : (handling (host p) (call p) h again e).isSome = true := by
  induction again generalizing e with
  | nil =>
    rw [handling, call_run hh]
    cases p.run h [e] <;> rfl
  | cons instead again ih =>
    rw [handling, call_run hh]
    cases p.run h [e] with
    | returns vs => rfl
    | raises x => exact ih _

theorem handled_isSome (base : List Value) {h : Value} (e : Value) (hh : isErrorHandler h = false) :
    (handled (host p) (call p) base h e).isSome = true := by
  unfold handled
  split
  · rw [Option.isSome_map]
    exact handling_isSome hh _ _
  · rfl

/-- The library ends with what the handler comes to return. -/
theorem handling_iff {h : Value} (hh : isErrorHandler h = false) (again : List (Option Value))
    (e v : Value) :
    handling (host p) (call p) h again e = some (.errRun,v) ↔ Settles p h again e v := by
  induction again generalizing e with
  | nil =>
    rw [handling, call_run hh]
    cases hrun : p.run h [e] with
    | returns vs =>
      constructor
      · intro heq
        cases heq
        exact .returns hrun
      · rintro (⟨hvs⟩ | _)
        cases hrun.symm.trans hvs
        rfl
    | raises x =>
      refine iff_of_false (fun heq => by cases heq) ?_
      rintro (⟨hvs⟩ | _)
      cases hrun.symm.trans hvs
  | cons instead again ih =>
    rw [handling, call_run hh]
    cases hrun : p.run h [e] with
    | returns vs =>
      constructor
      · intro heq
        cases heq
        exact .returns hrun
      · rintro (⟨hvs⟩ | ⟨hx,-⟩)
        · cases hrun.symm.trans hvs
          rfl
        · cases hrun.symm.trans hx
    | raises x =>
      refine (ih _).trans ⟨.raises hrun,?_⟩
      rintro (⟨hvs⟩ | ⟨hx,hsettles⟩)
      · cases hrun.symm.trans hvs
      · cases hrun.symm.trans hx
        exact hsettles

/-- An error that the program handles itself. -/
theorem handled_iff (base : List Value) {h e v : Value} (hh : isErrorHandler h = false) :
    some (Status.errRun,push base v) = handled (host p) (call p) base h e ↔
      p.handles h = true ∧ Settles p h p.again e v := by
  have hhost : (host p).handles h = p.handles h := by
    simp [host, hh]
  unfold handled
  rw [hhost]
  cases hhandles : p.handles h with
  | false =>
    rw [if_neg Bool.false_ne_true]
    exact iff_of_false (fun h => by cases h) (fun h => Bool.false_ne_true h.1)
  | true =>
    rw [if_pos rfl, ← handling_iff hh p.again e v]
    change _ = Option.map _ (handling (host p) (call p) h p.again e) ↔ _
    cases handling (host p) (call p) h p.again e with
    | none => exact iff_of_false (fun h => by cases h) (fun h => by cases h.2)
    | some r =>
      obtain ⟨status,u⟩ := r
      constructor
      · intro heq
        obtain ⟨hstatus,hstack⟩ := Prod.mk.inj (Option.some.inj heq)
        have hvalue : v = u := List.singleton_inj.mp (List.append_cancel_left hstack)
        have hstatus : Status.errRun = status := hstatus
        exact ⟨rfl,by rw [hstatus, hvalue]⟩
      · rintro ⟨-,heq⟩
        cases heq
        rfl

/-- Below the function the stack is as it was, and above it nothing is the debugger's. -/
theorem handlerOf_plain (h : passedOn s errorfunc = false) (h0 : errorfunc ≠ 0) :
    isErrorHandler (handlerOf (host p) s nargs errorfunc) = false := by
  have hvalue : isErrorHandler (value .nil s errorfunc) = false := by
    simp only [passedOn, Bool.or_eq_false_iff, Bool.and_eq_false_iff, decide_eq_false_iff_not,
      not_not] at h
    exact h.2.resolve_left h0
  have hplain := p.frame_plain (value .nil s (-(nargs+1))) (s.drop (s.length-nargs))
  change isErrorHandler ((pop s (nargs+1) ++
    p.frame (value .nil s (-(nargs+1))) (s.drop (s.length-nargs))).getD (position s errorfunc) .nil) = false
  generalize p.frame (value .nil s (-(nargs+1))) (s.drop (s.length-nargs)) = frame at hplain ⊢
  rw [List.getD_eq_getElem?_getD]
  by_cases hbelow : position s errorfunc < (pop s (nargs+1)).length
  · rw [List.getElem?_append_left hbelow]
    rw [value, List.getD_eq_getElem?_getD] at hvalue
    rw [pop] at hbelow ⊢
    rw [List.getElem?_take_of_lt (lt_of_lt_of_le hbelow (List.length_take_le ..))]
    exact hvalue
  · rw [List.getElem?_append_right (not_lt.mp hbelow)]
    cases hv : frame[position s errorfunc - (pop s (nargs+1)).length]? with
    | none => rfl
    | some v => exact hplain v (List.mem_of_getElem? hv)

theorem raised_iff (base : List Value) {e : Value} (h : passedOn s errorfunc = false) :
    ((if p.registered then some (Status.errRun,push base (answered p (upvalue s errorfunc) e)) else none) =
      if errorfunc = 0 then some (.errRun,push base (tostring p e))
      else handled (host p) (call p) base (handlerOf (host p) s nargs errorfunc) (tostring p e)) ↔
      Handled p s nargs errorfunc e := by
  unfold Handled
  cases hr : p.registered with
  | false =>
    refine iff_of_false (fun heq => ?_) (fun hc => Bool.false_ne_true hc.1)
    rw [if_neg Bool.false_ne_true] at heq
    by_cases h0 : errorfunc = 0
    · rw [if_pos h0] at heq
      cases heq
    · rw [if_neg h0] at heq
      have hplain : isErrorHandler (handlerOf (host p) s nargs errorfunc) = false := handlerOf_plain h h0
      have hsome := handled_isSome (p := p) base (tostring p e) hplain
      rw [← heq] at hsome
      cases hsome
  | true =>
    rw [if_pos rfl]
    by_cases h0 : errorfunc = 0
    · rw [if_pos h0, upvalue, if_pos h0]
      exact iff_of_true rfl ⟨rfl,.inl h0⟩
    · rw [if_neg h0, upvalue, if_neg h0, handled_iff base (handlerOf_plain h h0)]
      exact ⟨fun hc => ⟨rfl,.inr hc⟩,fun hc => hc.2.resolve_left h0⟩

end Transparency

def failing : Program where
  format _ := []
  run f _ := .raises f
  frame _ _ := []
  frame_plain _ _ := nofun
  handles v := match v with
    | .function _ => true
    | _ => false
  handles_nil := rfl
  again := [none,none]
  errErr v := v
  registered := true

end Vecoda.ProtectedCall

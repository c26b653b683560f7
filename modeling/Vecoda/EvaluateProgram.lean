import Vecoda.FrameTables
import Vecoda.ValueText

/-!
# Evaluate on the stack

Evaluate as a program on the Lua stack: the sentinel, the tables of the frame,
the chunk that is loaded and called, the printing of what it leaves, and the
way back. Beside it stands what it comes to without the stack. The debugger's
hook and intercepts are off meanwhile, so that the library is called directly.
-/

set_option autoImplicit false

namespace Vecoda.EvaluateProgram
open LuaApi ValueText FrameTables
open LuaText (text cstr)
open LuaStack (Status Result adjust)
open TableDocument (TiXmlElement writeXmlNode)

variable {σ : Type} (p : Printer σ)

def strstr (s sub : Bytes) : Option Bytes :=
  match s with
  | [] => if sub = [] then some [] else none
  | c::s => if sub.isPrefixOf (c::s) then some (c::s) else strstr s sub

def errorText (wholeMessage : Bytes) : Bytes :=
  text "Error: " ++
    match strstr wholeMessage (text ":2: ") with
    | some errorMessage => errorMessage.drop 4
    | none => wholeMessage

section Program

/-- The expression may be a statement. -/
def reload (expression : Bytes) : Loaded → Printing σ Loaded
  | .syntaxError _ => do
    pop 1
    load p.lua expression
  | .ok f => return .ok f
  | .failed message => return .failed message

def runExpression (expression : Bytes) (envTable : ℤ) : Printing σ Bool := do
  let first ← load p.lua (text "return \n" ++ expression)
  let loaded ← reload p expression first
  match loaded with
  | .ok _ => do
    pushvalue envTable
    luaSetfenvDll p.lua (-2)
    let status ← pcall p.lua 0 none
    return status ≠ .ok
  | .syntaxError _ => return true
  | .failed _ => return true

def resultNodes (asText : Text σ) : ℕ → Printing σ (List TiXmlElement)
  | 0 => return []
  | remaining+1 => do
    let node ← asText (-(remaining+1 : ℕ)) 1 none false
    let nodes ← resultNodes asText remaining
    return node.toList ++ nodes

def valuesDocument (nresults : ℕ) (nodes : List TiXmlElement) : List TiXmlElement :=
  if 1 < nresults then [.node (text "values") [] nodes] else nodes

def resultDocument (asText : Text σ) (stackTop : ℤ) : Printing σ (List TiXmlElement) := do
  let top ← gettop
  let nresults := (top-stackTop).toNat
  let nodes ← resultNodes asText nresults
  pop nresults
  return valuesDocument nresults nodes

def errorDocument : Printing σ (List TiXmlElement) := do
  let error ← look (-1)
  match p.lua.tostring error with
  | none => halt (.fault .string)
  | some wholeMessage => do
    pop 1
    return [writeXmlNode "error" (errorText (cstr wholeMessage))]

def outcomeDocument (asText : Text σ) (stackTop : ℤ) (error : Bool) : Printing σ (List TiXmlElement) :=
  if error then errorDocument p else resultDocument asText stackTop

/-- Whether it went well, with the document; `none` without a frame. -/
def evaluate (fuel : ℕ) (expression : Bytes) (stackLevel : ℤ) :
    Printing σ (Option (Bool × List TiXmlElement)) := do
  newuserdata p.lua
  let nilSentinel ← gettop
  let made ← createEnvironment p.lua stackLevel nilSentinel
  if made then do
    let envTable ← gettop
    let upValueTable := envTable-1
    let localTable := envTable-2
    let stackTop ← gettop
    let error ← runExpression p expression envTable
    let document ← outcomeDocument p (getValueAsText p fuel) stackTop error
    setLocals p.lua stackLevel localTable nilSentinel
    setUpValues p.lua stackLevel upValueTable nilSentinel
    pop 3
    pop 1
    return some (!error,document)
  else do
    pop 1
    return none

end Program

section Stackless

def reloaded (expression : Bytes) (l : Loaded × σ) : Loaded × σ :=
  match l.1 with
  | .syntaxError _ => p.lua.load l.2 expression
  | .ok _ => l
  | .failed _ => l

def ran (expression : Bytes) (env : Value) (w : σ) : Result Value × σ :=
  let l := reloaded p expression (p.lua.load w (text "return \n" ++ expression))
  match l.1 with
  | .ok f => p.lua.call (enclosed p.lua f env l.2) f []
  | .syntaxError message => (.raises message,l.2)
  | .failed message => (.raises message,l.2)

def resultsShown (shown : Shown σ) (h : ℕ) : List Value → σ → Outcome σ (List TiXmlElement)
  | [], w => .ok ([],w)
  | v::vs, w => (shown h 1 none false v w).bind (fun node =>
      (resultsShown shown h vs node.2).bind (fun nodes => .ok (node.1.toList ++ nodes.1,nodes.2)))

def outcomeShown (shown : Shown σ) (h : ℕ) (r : Result Value) (w : σ) : Outcome σ (List TiXmlElement) :=
  match r with
  | .returns vs => (resultsShown shown (h+vs.length) vs w).bind
      (fun nodes => .ok (valuesDocument vs.length nodes.1,nodes.2))
  | .raises e =>
    match p.lua.tostring e with
    | none => .error (.fault .string)
    | some wholeMessage => .ok ([writeXmlNode "error" (errorText (cstr wholeMessage))],w)

def failedResult : Result Value → Bool
  | .returns _ => false
  | .raises _ => true

def prepared (stackLevel : ℤ) (w : σ) : Value × Environment σ :=
  let sentinel := p.lua.newuserdata w
  (sentinel.1,environment p.lua stackLevel sentinel.1 sentinel.2)

def restored (stackLevel : ℤ) (sentinel : Value) (e : Environment σ) (w : σ) : σ :=
  restoredUpvalues p.lua stackLevel e.upValueTable sentinel
    (restoredLocals p.lua stackLevel e.localTable sentinel w)

def evaluated (fuel h : ℕ) (expression : Bytes) (stackLevel : ℤ) (w : σ) :
    Outcome σ (Option (Bool × List TiXmlElement)) :=
  let sentinel := p.lua.newuserdata w
  if p.lua.getstack sentinel.2 stackLevel then
    let e := (prepared p stackLevel w).2
    let r := ran p expression e.envTable e.world
    (outcomeShown p (valueShown p fuel) (h+4) r.1 r.2).bind (fun document =>
      .ok (some (!failedResult r.1,document.1),restored p stackLevel sentinel.1 e document.2))
  else .ok (none,sentinel.2)

end Stackless

section Refinement

variable {p}

theorem reload_apply (expression : Bytes) (s : List Value) (l : Loaded × σ) :
    reload p expression l.1 ⟨s ++ [l.1.pushed],l.2⟩ =
      .ok ((reloaded p expression l).1,
        ⟨s ++ [(reloaded p expression l).1.pushed],(reloaded p expression l).2⟩) := by
  obtain ⟨l,w⟩ := l
  cases l with
  | ok f => rfl
  | failed message => rfl
  | syntaxError message =>
    simp [reload, reloaded, load_apply]

theorem runExpression_apply {s : List Value} {i : ℤ} (hi : Fixed s i) (expression : Bytes) (w : σ) :
    runExpression p expression i ⟨s,w⟩ =
      .ok (failedResult (ran p expression (value s i) w).1,
        ⟨s ++ left (ran p expression (value s i) w).1,(ran p expression (value s i) w).2⟩) := by
  rw [runExpression, bind_apply, load_apply, ok_bind, bind_apply, reload_apply, ok_bind, ran]
  obtain ⟨l,w'⟩ := reloaded p expression (p.lua.load w (text "return \n" ++ expression))
  cases l with
  | syntaxError message => rfl
  | failed message => rfl
  | ok f =>
    have henv := luaSetfenvDll_apply (ε := Null) p.lua s f (value s i) w'
    cases hcall : p.lua.call (enclosed p.lua f (value s i) w') f [] with
    | mk r w'' =>
      cases r with
      | returns vs => simp [Loaded.pushed, fixed_append hi, henv, pcall, hcall, failedResult, left, adjust]
      | raises e => simp [Loaded.pushed, fixed_append hi, henv, pcall, hcall, failedResult, left]

theorem resultNodes_apply {asText : Text σ} {shown : Shown σ} (ht : Neutral asText shown) (s vs : List Value)
    (w : σ) : resultNodes asText vs.length ⟨s ++ vs,w⟩ =
      leaving (s ++ vs) (resultsShown shown (s ++ vs).length vs w) := by
  induction vs generalizing s w with
  | nil => rfl
  | cons v vs ih =>
    have hv : value (s ++ v::vs) (-((vs.length+1 : ℕ) : ℤ)) = v := value_first ..
    have hs : s ++ v::vs = (s ++ [v]) ++ vs := by rw [List.append_assoc]; rfl
    rw [List.length_cons, resultNodes, bind_apply, ht, hv, leaving_bind, resultsShown, bind_leaving]
    congr 1
    funext node
    rw [bind_apply, hs, ih, leaving_bind, bind_leaving]
    rfl

theorem resultDocument_apply {asText : Text σ} {shown : Shown σ} (ht : Neutral asText shown)
    (s vs : List Value) (w : σ) : resultDocument asText s.length ⟨s ++ vs,w⟩ =
      leaving s (outcomeShown p shown s.length (.returns vs) w) := by
  have hgap : (((s ++ vs).length : ℕ) : ℤ)-s.length = (vs.length : ℕ) := by
    rw [List.length_append]
    omega
  have hpop : LuaStack.pop (s ++ vs) vs.length = s := by simp
  rw [resultDocument, bind_apply, gettop_apply, ok_bind, hgap, Int.toNat_natCast, bind_apply,
    resultNodes_apply ht, leaving_bind, outcomeShown, bind_leaving, List.length_append]
  congr 1
  funext nodes
  rw [bind_apply, pop_apply, ok_bind, hpop]
  rfl

theorem errorDocument_apply (shown : Shown σ) (s : List Value) (e : Value) (w : σ) :
    errorDocument p ⟨s ++ [e],w⟩ = leaving s (outcomeShown p shown s.length (.raises e) w) := by
  cases he : p.lua.tostring e with
  | none => simp [errorDocument, outcomeShown, he]
  | some wholeMessage => simp [errorDocument, outcomeShown, he]

theorem outcomeDocument_apply {asText : Text σ} {shown : Shown σ} (ht : Neutral asText shown)
    (s : List Value) (r : Result Value) (w : σ) :
    outcomeDocument p asText s.length (failedResult r) ⟨s ++ left r,w⟩ =
      leaving s (outcomeShown p shown s.length r w) := by
  cases r with
  | returns vs => exact resultDocument_apply ht s vs w
  | raises e => exact errorDocument_apply shown s e w

/-- Where the sentinel and the three tables stand. -/
theorem tables_above (s : List Value) (n l u e : Value) :
    ((s ++ [n] ++ [l,u,e]).length : ℤ) = s.length+4 ∧
      value (s ++ [n] ++ [l,u,e]) (s.length+1) = n ∧
      value (s ++ [n] ++ [l,u,e]) ((s ++ [n] ++ [l,u,e]).length-2) = l ∧
      value (s ++ [n] ++ [l,u,e]) ((s ++ [n] ++ [l,u,e]).length-1) = u ∧
      value (s ++ [n] ++ [l,u,e]) (s ++ [n] ++ [l,u,e]).length = e ∧
      LuaStack.pop (LuaStack.pop (s ++ [n] ++ [l,u,e]) 3) 1 = s := by
  have hlength : ((s ++ [n] ++ [l,u,e]).length : ℤ) = s.length+4 := by simp
  have hl : (s.length : ℤ)+4-2 = s.length+2 := by omega
  have hu : (s.length : ℤ)+4-1 = s.length+3 := by omega
  refine ⟨hlength,?_,?_,?_,?_,by simp⟩
  · rw [List.append_assoc]
    exact LuaStack.value_above ..
  · rw [hlength, hl, List.append_assoc]
    exact value_two ..
  · rw [hlength, hu, List.append_assoc]
    exact value_three ..
  · rw [value_last _ (by simp)]
    simp

/-- Evaluate leaves the stack as it was. -/
theorem evaluate_apply (fuel : ℕ) (expression : Bytes) (stackLevel : ℤ) (s : List Value) (w : σ) :
    evaluate p fuel expression stackLevel ⟨s,w⟩ =
      leaving s (evaluated p fuel s.length expression stackLevel w) := by
  obtain ⟨sentinel,hsentinel⟩ : ∃ sentinel, sentinel = p.lua.newuserdata w := ⟨_,rfl⟩
  have hi : Fixed (s ++ [sentinel.1]) (s.length+1) := ⟨by omega,by simp⟩
  have hvalue : value (s ++ [sentinel.1]) (s.length+1) = sentinel.1 := LuaStack.value_above ..
  have hlength : (((s ++ [sentinel.1]).length : ℕ) : ℤ) = s.length+1 := by simp
  have hpop : LuaStack.pop (s ++ [sentinel.1]) 1 = s := by simp
  rw [evaluate, bind_apply, newuserdata_apply, ok_bind, bind_apply, gettop_apply, ok_bind, ← hsentinel,
    evaluated, ← hsentinel, hlength, bind_apply]
  cases hlevel : p.lua.getstack sentinel.2 stackLevel with
  | false =>
    rw [createEnvironment_missing p.lua hlevel, ok_bind, if_neg Bool.false_ne_true,
      if_neg Bool.false_ne_true, bind_apply, pop_apply, ok_bind, hpop]
    rfl
  | true =>
    obtain ⟨e,he⟩ : ∃ e, e = environment p.lua stackLevel sentinel.1 sentinel.2 := ⟨_,rfl⟩
    have hprepared : (prepared p stackLevel w).2 = e := by rw [prepared, ← hsentinel, he]
    have hcreate := createEnvironment_apply (ε := Null) p.lua hi hlevel
    rw [hvalue, ← he] at hcreate
    rw [hcreate, ok_bind, if_pos rfl, if_pos rfl, hprepared]
    obtain ⟨t,ht⟩ : ∃ t, t = s ++ [sentinel.1] ++ [e.localTable,e.upValueTable,e.envTable] := ⟨_,rfl⟩
    obtain ⟨htop,hbottom,hlocal,hupvalue,henv,hdone⟩ :=
      tables_above s sentinel.1 e.localTable e.upValueTable e.envTable
    rw [← ht] at *
    have hsecond : Fixed t (s.length+1) := ⟨by omega,by omega⟩
    rw [bind_apply, gettop_apply, ok_bind, bind_apply, gettop_apply, ok_bind, bind_apply,
      runExpression_apply (s := t) (i := t.length) ⟨by omega,le_rfl⟩, henv, ok_bind, bind_apply,
      outcomeDocument_apply (getValueAsText_apply fuel), leaving_bind, bind_leaving]
    have hlength : t.length = s.length+4 := by omega
    rw [hlength]
    congr 1
    funext document
    have hlocals := setLocals_apply (ε := Null) p.lua (t := t.length-2) ⟨by omega,by omega⟩ hsecond
      stackLevel document.2
    have hupvalues := setUpValues_apply (ε := Null) p.lua (t := t.length-1) ⟨by omega,by omega⟩ hsecond
      stackLevel (restoredLocals p.lua stackLevel e.localTable sentinel.1 document.2)
    rw [hlocal, hbottom] at hlocals
    rw [hupvalue, hbottom] at hupvalues
    rw [← hlength, bind_apply, hlocals, ok_bind, bind_apply, hupvalues, ok_bind, bind_apply, pop_apply, ok_bind,
      bind_apply, pop_apply, ok_bind, hdone]
    rfl

end Refinement

end Vecoda.EvaluateProgram

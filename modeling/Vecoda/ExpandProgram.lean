import Vecoda.FrameTables
import Vecoda.ValueText

/-!
# ExpandTable on the stack

ExpandTable prints the table of a reference, or the variables or the globals of
a frame. It runs as a program on the Lua stack; beside it stands what it comes
to without the stack, and what it leaves there.
-/

set_option autoImplicit false

namespace Vecoda.ExpandProgram
open LuaApi TableCache ValueText FrameTables
open LuaText (text)
open Watch (isLocal isUpvalue)
open TableDocument (TiXmlElement writeValue tableNode sprintfD)

inductive Scope where
  | none
  | «local»
  | upvalue
  | global
  deriving DecidableEq

variable {σ : Type} (p : Printer σ)

def isTable : Value → Bool
  | .table _ => true
  | _ => false

def variableElement (name : Bytes) (value : TiXmlElement) : TiXmlElement :=
  .node (text "element") [] [.node (text "key") [] [writeValue name (text "string")],
    .node (text "data") [] [value]]

def specialTable (elements : List (Option TiXmlElement)) : TiXmlElement :=
  tableNode (text "table") (if elements.reduceOption = [] then [(text "empty",sprintfD 1)] else [])
    elements.reduceOption

section Program

def variableText (asText : Text σ) (visible : Bytes → Bool) (name : Bytes) :
    Printing σ (Option TiXmlElement) :=
  if visible name then do
    let node ← linkedText asText (-1) 1 none false
    pop 1
    return some (variableElement name node)
  else do
    pop 1
    return none

def localTexts (asText : Text σ) (level : ℤ) : Printing σ (List (Option TiXmlElement)) := do
  let count ← localCount p.lua level
  forVariables (getlocal p.lua level) (fun _ => variableText asText isLocal) count 0

def upvalueTexts (asText : Text σ) (level : ℤ) : Printing σ (List (Option TiXmlElement)) := do
  getfunction p.lua level
  let functionIndex ← gettop
  let count ← upvalueCount p.lua functionIndex
  let elements ← forVariables (getupvalue p.lua functionIndex) (fun _ => variableText asText isUpvalue) count 0
  remove functionIndex
  return elements

def globalText (asText : Text σ) (level : ℤ) : Printing σ (Option TiXmlElement) := do
  copyGlobal p.lua level
  let node ← asText (-1) 2 none false
  pop 1
  return node

def scopeText (asText : Text σ) (level : ℤ) : Scope → Printing σ (Option TiXmlElement)
  | .«local» => do
    let elements ← localTexts p asText level
    return some (specialTable elements)
  | .upvalue => do
    let elements ← upvalueTexts p asText level
    return some (specialTable elements)
  | .global => globalText p asText level
  | .none => globalText p asText level

/-- A null pointer where there is no such level. -/
def getSpecialNode (asText : Text σ) (scope : Scope) (level : ℤ) : Printing σ (Option TiXmlElement) := do
  let w ← world
  if p.lua.getstack w level then scopeText p asText level scope else return none

def linkEndChild : Option TiXmlElement → Printing σ (List TiXmlElement)
  | some node => return [node]
  | none => halt (.fault .node)

/-- The text "unknow reference" is overwritten by the empty document. -/
def expandReference (asText : Text σ) (reference : ℤ) : Printing σ (List TiXmlElement) := do
  getRegistryRefTable p.lua p.addresses
  rawgeti p.lua (-1 : ℤ) reference
  let v ← look (-1)
  if isTable v then do
    let node ← asText (-1) 2 none false
    linkEndChild node
  else return []

def expandTable (fuel : ℕ) (scope : Scope) (level reference : ℤ) : Printing σ (List TiXmlElement) :=
  if scope = .none then expandReference p (getValueAsText p fuel) reference
  else do
    let node ← getSpecialNode p (getValueAsText p fuel) scope level
    linkEndChild node

end Program

section Stackless

inductive Variables where
  | locals (level : ℤ)
  | upvalues (f : Value)

def Variables.read : Variables → ℕ → σ → Option (Bytes × Value)
  | .locals level, n, w => (p.lua.locals w level)[n]?
  | .upvalues f, n, w => (p.lua.upvalues w f)[n]?

def Variables.visible : Variables → Bytes → Bool
  | .locals _ => isLocal
  | .upvalues _ => isUpvalue

def variableShown (shown : Shown σ) (visible : Bytes → Bool) (h : ℕ) (name : Bytes) (v : Value) (w : σ) :
    Outcome σ (Option TiXmlElement) :=
  if visible name then (linked (shown h 1 none false v w)).bind
    (fun node => .ok (some (variableElement name node.1),node.2))
  else .ok (none,w)

def variablesShown (shown : Shown σ) (of : Variables) (h count n : ℕ) (w : σ) :
    Outcome σ (List (Option TiXmlElement)) :=
  eachVariable (of.read p) (fun _ name v w => variableShown shown of.visible h name v w) count n w

def specialShown (r : Outcome σ (List (Option TiXmlElement))) : Outcome σ (Option TiXmlElement) :=
  r.bind (fun elements => .ok (some (specialTable elements.1),elements.2))

def globalShown (shown : Shown σ) (h : ℕ) (level : ℤ) (w : σ) : Outcome σ (Option TiXmlElement) :=
  let env := environmentOf p.lua (p.lua.frameFunction w level) w
  shown (h+1) 2 none false env.1 env.2

def scopeShown (shown : Shown σ) (h : ℕ) (level : ℤ) (w : σ) : Scope → Outcome σ (Option TiXmlElement)
  | .«local» =>
    specialShown (variablesShown p shown (.locals level) (h+1) (p.lua.locals w level).length 0 w)
  | .upvalue =>
    let f := p.lua.frameFunction w level
    specialShown (variablesShown p shown (.upvalues f) (h+2) (p.lua.upvalues w f).length 0 w)
  | .global => globalShown p shown h level w
  | .none => globalShown p shown h level w

def specialNodeShown (shown : Shown σ) (h : ℕ) (scope : Scope) (level : ℤ) (w : σ) :
    Outcome σ (Option TiXmlElement) :=
  if p.lua.getstack w level then scopeShown p shown h level w scope else .ok (none,w)

def child (r : Outcome σ (Option TiXmlElement)) : Outcome σ (List TiXmlElement) :=
  (linked r).bind (fun node => .ok ([node.1],node.2))

def refTable (w : σ) : Value × σ :=
  let refs := p.lua.rawget w p.lua.registry (.lightuserdata p.addresses.refPos)
  if refs = .nil then p.lua.newtable w else (refs,w)

def referred (reference : ℤ) (w : σ) : Value :=
  p.lua.rawget (refTable p w).2 (refTable p w).1 (.integer reference)

def referenceShown (shown : Shown σ) (h : ℕ) (reference : ℤ) (w : σ) : Outcome σ (List TiXmlElement) :=
  if isTable (referred p reference w) then
    child (shown (h+2) 2 none false (referred p reference w) (refTable p w).2)
  else .ok ([],(refTable p w).2)

def expanded (fuel h : ℕ) (scope : Scope) (level reference : ℤ) (w : σ) : Outcome σ (List TiXmlElement) :=
  if scope = .none then referenceShown p (valueShown p fuel) h reference w
  else child (specialNodeShown p (valueShown p fuel) h scope level w)

def leftover (scope : Scope) (reference : ℤ) (w : σ) : List Value :=
  if scope = .none then [(refTable p w).1,referred p reference w] else []

end Stackless

section Refinement

variable {p} {asText : Text σ} {shown : Shown σ}

theorem linkEndChild_apply (s : List Value) (r : Outcome σ (Option TiXmlElement)) :
    (leaving s r).bind (fun node => linkEndChild node.1 node.2) = leaving s (child r) := by
  cases r with
  | error e => rfl
  | ok r =>
    obtain ⟨node,w⟩ := r
    cases node <;> rfl

theorem variableText_apply (ht : Neutral asText shown) (visible : Bytes → Bool) (s : List Value) (name : Bytes)
    (v : Value) (w : σ) : variableText asText visible name ⟨s ++ [v],w⟩ =
      leaving s (variableShown shown visible (s.length+1) name v w) := by
  have hv : value (s ++ [v]) (-1) = v := by simp
  have hlength : (s ++ [v]).length = s.length+1 := by simp
  have hpop : LuaStack.pop (s ++ [v]) 1 = s := by simp
  rw [variableText, variableShown]
  by_cases hn : visible name = true
  · rw [if_pos hn, if_pos hn, bind_apply, linkedText_apply ht, hlength, hv, leaving_bind, bind_leaving]
    congr 1
    funext node
    rw [bind_apply, pop_apply, ok_bind, hpop]
    rfl
  · rw [if_neg hn, if_neg hn, bind_apply, pop_apply, ok_bind, hpop]
    rfl

theorem localTexts_apply (ht : Neutral asText shown) (s : List Value) (level : ℤ) (w : σ) :
    localTexts p asText level ⟨s,w⟩ = leaving s
      (variablesShown p shown (.locals level) (s.length+1) (p.lua.locals w level).length 0 w) :=
  forVariables_apply (reads_local p.lua level s)
    (fun _ name v w => variableText_apply ht isLocal s name v w) _ 0 w

theorem upvalueTexts_apply (ht : Neutral asText shown) (s : List Value) (level : ℤ) (w : σ) :
    upvalueTexts p asText level ⟨s,w⟩ = leaving s
      (variablesShown p shown (.upvalues (p.lua.frameFunction w level)) (s.length+2)
        (p.lua.upvalues w (p.lua.frameFunction w level)).length 0 w) := by
  obtain ⟨f,hframe⟩ : ∃ f, f = p.lua.frameFunction w level := ⟨_,rfl⟩
  have hf : value (s ++ [f]) (s.length+1) = f := LuaStack.value_above ..
  have hlength : (s ++ [f]).length = s.length+1 := by simp
  have hremove : LuaStack.remove (s ++ [f]) (s.length+1) = s := by
    have := LuaStack.remove_above f s []
    simpa using this
  have hloop := forVariables_apply (reads_upvalue (ε := Null) p.lua (s.length+1) (s ++ [f]))
    (fun _ name v w => variableText_apply ht isUpvalue (s ++ [f]) name v w)
    (p.lua.upvalues w f).length 0 w
  rw [hf, hlength] at hloop
  have htop : (((s ++ [f]).length : ℕ) : ℤ) = s.length+1 := by simp
  rw [upvalueTexts, bind_apply, getfunction, ok_bind, ← hframe, bind_apply, gettop_apply, ok_bind, htop,
    bind_apply, upvalueCount, ok_bind, bind_apply, hf, hloop, leaving_bind, variablesShown]
  simp only [bind_apply, remove_apply, hremove, ok_bind, pure_apply]
  rfl

theorem globalText_apply (ht : Neutral asText shown) (s : List Value) (level : ℤ) (w : σ) :
    globalText p asText level ⟨s,w⟩ = leaving s (globalShown p shown s.length level w) := by
  obtain ⟨env,henv⟩ : ∃ env, env = environmentOf p.lua (p.lua.frameFunction w level) w := ⟨_,rfl⟩
  have htop : value (s ++ [env.1]) (-1) = env.1 := by simp
  have hlength : (s ++ [env.1]).length = s.length+1 := by simp
  have hpop : LuaStack.pop (s ++ [env.1]) 1 = s := by simp
  rw [globalText, bind_apply, copyGlobal_apply, ok_bind, ← henv, bind_apply, ht, leaving_bind, htop, hlength,
    globalShown, ← henv]
  simp only [bind_apply, pop_apply, hpop, ok_bind, pure_apply]
  rfl

theorem scopeText_apply (ht : Neutral asText shown) (s : List Value) (level : ℤ) (w : σ) (scope : Scope) :
    scopeText p asText level scope ⟨s,w⟩ = leaving s (scopeShown p shown s.length level w scope) := by
  cases scope with
  | none => exact globalText_apply ht s level w
  | global => exact globalText_apply ht s level w
  | «local» =>
    rw [scopeText, scopeShown, bind_apply, localTexts_apply ht, leaving_bind, specialShown, bind_leaving]
    rfl
  | upvalue =>
    rw [scopeText, scopeShown, bind_apply, upvalueTexts_apply ht, leaving_bind, specialShown, bind_leaving]
    rfl

theorem getSpecialNode_apply (ht : Neutral asText shown) (s : List Value) (scope : Scope) (level : ℤ) (w : σ) :
    getSpecialNode p asText scope level ⟨s,w⟩ =
      leaving s (specialNodeShown p shown s.length scope level w) := by
  rw [getSpecialNode, bind_apply, world_apply, ok_bind, specialNodeShown]
  by_cases hl : p.lua.getstack w level = true
  · rw [if_pos hl, if_pos hl]
    exact scopeText_apply ht s level w scope
  · rw [if_neg hl, if_neg hl]
    rfl

theorem expandReference_apply (ht : Neutral asText shown) (s : List Value) (reference : ℤ) (w : σ) :
    expandReference p asText reference ⟨s,w⟩ =
      leaving (s ++ [(refTable p w).1,referred p reference w])
        (referenceShown p shown s.length reference w) := by
  have hrefs : (getRegistryRefTable p.lua p.addresses : Printing σ Unit) ⟨s,w⟩ =
      .ok ((),⟨s ++ [(refTable p w).1],(refTable p w).2⟩) := by
    simp only [getRegistryRefTable_apply, refTable]
    split <;> rfl
  have hrefers : p.lua.rawget (refTable p w).2 (value (s ++ [(refTable p w).1]) (-1)) (.integer reference) =
      referred p reference w := by rw [value_top _ _ (by simp)]; rfl
  have htop : value (s ++ [(refTable p w).1,referred p reference w]) (-1) = referred p reference w := by simp
  have hlength : (s ++ [(refTable p w).1,referred p reference w]).length = s.length+2 := by simp
  rw [expandReference, bind_apply, hrefs, ok_bind, bind_apply, rawgeti_apply, ok_bind, at_stack, hrefers,
    List.append_assoc, List.singleton_append, bind_apply, look_apply, ok_bind, htop, referenceShown]
  by_cases hv : isTable (referred p reference w) = true
  · rw [if_pos hv, if_pos hv, bind_apply, ht, linkEndChild_apply, hlength, htop]
  · rw [if_neg hv, if_neg hv]
    rfl

/-- What ExpandTable comes to, and what it leaves on the stack. -/
theorem expandTable_apply (fuel : ℕ) (scope : Scope) (level reference : ℤ) (s : List Value) (w : σ) :
    expandTable p fuel scope level reference ⟨s,w⟩ =
      leaving (s ++ leftover p scope reference w) (expanded p fuel s.length scope level reference w) := by
  unfold expandTable expanded leftover
  by_cases hs : scope = .none
  · rw [if_pos hs, if_pos hs, if_pos hs]
    exact expandReference_apply (getValueAsText_apply fuel) s reference w
  · rw [if_neg hs, if_neg hs, if_neg hs, bind_apply, getSpecialNode_apply (getValueAsText_apply fuel),
      linkEndChild_apply, List.append_nil]

end Refinement

end Vecoda.ExpandProgram

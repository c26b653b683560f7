import Vecoda.LoadedFunctions

/-!
# Calls of the Lua API

The functions of LuaDll.cpp that the backend calls, each of which picks the
pointer to call by what `LoadLuaFunctions` has found. An argument and a result
are words; the functions behind the pointers, and the memory that is read and
written beside them, are a parameter.
-/

set_option autoImplicit false

namespace Vecoda.ApiCalls
open LoadedFunctions

inductive Fault where
  | null (f : Field)
  | assertion
  | endless

/-- `isEnv` compares a name with `_ENV`. `setThread` makes a thread of the light userdata on top,
with the structures of Lua 5.0 packed or not, if it finds it there. -/
structure Machine (σ : Type) where
  invoke : Address → List ℤ → σ → ℤ × σ
  isEnv : ℤ → σ → Bool
  strlen : ℤ → σ → ℤ
  store : ℤ → ℤ → σ → σ
  setThread : Bool → ℤ → σ → Bool × σ
  warnAboutThreads : σ → σ
  toNumber : ℤ → ℤ
  toInt : ℤ → ℤ

abbrev Api (σ α : Type) := StateT σ (Except Fault) α

variable {σ : Type} (m : Machine σ) (i : LuaInterface)

def call (f : Field) (args : List ℤ) : Api σ ℤ := fun s =>
  if i.dllCdecl f = 0 then .error (.null f) else .ok (m.invoke (i.dllCdecl f) args s)

def assert (p : Bool) : Api σ Unit := fun s => if p then .ok ((),s) else .error .assertion

def look {α : Type} (f : σ → α) : Api σ α := fun s => .ok (f s,s)

def change {α : Type} (f : σ → α × σ) : Api σ α := fun s => .ok (f s)

def getGlobalsIndex : Api σ ℤ := do
  assert (500 ≤ i.version && i.version < 520)
  return i.globalsIndex

section Wrappers

variable (L : ℤ)

def luaSettopDll (index : ℤ) : Api σ ℤ := call m i .luaSettop [L,index]
def luaGettopDll : Api σ ℤ := call m i .luaGettop [L]
def luaGetinfoDll (what ar : ℤ) : Api σ ℤ := call m i .luaGetinfo [L,what,ar]
def luaSettableDll (index : ℤ) : Api σ ℤ := call m i .luaSettable [L,index]
def luaRawsetDll (idx : ℤ) : Api σ ℤ := call m i .luaRawset [L,idx]
def luaTypeDll (index : ℤ) : Api σ ℤ := call m i .luaType [L,index]
def luaTypenameDll (type : ℤ) : Api σ ℤ := call m i .luaTypename [L,type]
def luaCheckstackDll (extra : ℤ) : Api σ ℤ := call m i .luaCheckstack [L,extra]
def luaGetlocalDll (ar n : ℤ) : Api σ ℤ := call m i .luaGetlocal [L,ar,n]
def luaSetlocalDll (ar n : ℤ) : Api σ ℤ := call m i .luaSetlocal [L,ar,n]
def luaGetstackDll (level ar : ℤ) : Api σ ℤ := call m i .luaGetstack [L,level,ar]
def luaPushnilDll : Api σ ℤ := call m i .luaPushnil [L]
def luaPushcclosureDll (fn n : ℤ) : Api σ ℤ := call m i .luaPushcclosure [L,fn,n]
def luaPushvalueDll (index : ℤ) : Api σ ℤ := call m i .luaPushvalue [L,index]
def luaPushnumberDll (value : ℤ) : Api σ ℤ := call m i .luaPushnumber [L,value]
def luaPushlightuserdataDll (p : ℤ) : Api σ ℤ := call m i .luaPushlightuserdata [L,p]
def luaTobooleanDll (index : ℤ) : Api σ ℤ := call m i .luaToboolean [L,index]
def luaTocfunctionDll (index : ℤ) : Api σ ℤ := call m i .luaTocfunction [L,index]
def luaTouserdataDll (index : ℤ) : Api σ ℤ := call m i .luaTouserdata [L,index]
def luaNextDll (index : ℤ) : Api σ ℤ := call m i .luaNext [L,index]
def luaRawequalDll (idx1 idx2 : ℤ) : Api σ ℤ := call m i .luaRawequal [L,idx1,idx2]
def luaGetmetatableDll (index : ℤ) : Api σ ℤ := call m i .luaGetmetatable [L,index]
def luaSetmetatableDll (index : ℤ) : Api σ ℤ := call m i .luaSetmetatable [L,index]
def luaLUnrefDll (t ref : ℤ) : Api σ ℤ := call m i .luaLUnref [L,t,ref]
def luaGetupvalueDll (funcindex n : ℤ) : Api σ ℤ := call m i .luaGetupvalue [L,funcindex,n]
def luaSetupvalueDll (funcindex n : ℤ) : Api σ ℤ := call m i .luaSetupvalue [L,funcindex,n]
def luaGethookmaskDll : Api σ ℤ := call m i .luaGethookmask [L]

def luaPopDll (n : ℤ) : Api σ ℤ := luaSettopDll m i L (-n-1)

def luaAbsindexDll (index : ℤ) : Api σ ℤ := do
  if i.dllCdecl .luaAbsindex ≠ 0 then call m i .luaAbsindex [L,index]
  else if 0 < index ∨ index ≤ i.registryIndex then return index
  else return (← luaGettopDll m i L) + index + 1

def luaUpvalueindexDll (n : ℤ) : Api σ ℤ := do
  if i.version ≥ 520 then return i.registryIndex - n
  else return (← getGlobalsIndex i) - n

def luaSethookDll (f mask count : ℤ) : Api σ ℤ := do
  if i.dllCdecl .luaSethook530 ≠ 0 then
    let _ ← call m i .luaSethook530 [L,f,mask,count]
    return 0
  else call m i .luaSethook [L,f,mask,count]

def luaRemoveDll (index : ℤ) : Api σ ℤ := do
  if i.dllCdecl .luaRotate ≠ 0 then
    let _ ← call m i .luaRotate [L,index,-1]
    luaPopDll m i L 1
  else call m i .luaRemove [L,index]

def luaInsertDll (index : ℤ) : Api σ ℤ := do
  if i.dllCdecl .luaRotate ≠ 0 then call m i .luaRotate [L,index,1]
  else call m i .luaInsert [L,index]

def luaGettableDll (index : ℤ) : Api σ ℤ := do
  if i.version ≥ 530 then call m i .luaGettable530 [L,index]
  else call m i .luaGettable [L,index]

def luaRawgetDll (idx : ℤ) : Api σ ℤ := do
  if i.dllCdecl .luaRawget530 ≠ 0 then call m i .luaRawget530 [L,idx]
  else call m i .luaRawget [L,idx]

def luaRawgetiDll (idx n : ℤ) : Api σ ℤ := do
  if i.dllCdecl .luaRawgeti530 ≠ 0 then call m i .luaRawgeti530 [L,idx,n]
  else call m i .luaRawgeti [L,idx,n]

def luaPushstringDll (s : ℤ) : Api σ ℤ := do
  if i.dllCdecl .luaPushstring520 ≠ 0 then call m i .luaPushstring520 [L,s]
  else call m i .luaPushstring [L,s]

def luaSetfieldDll (index k : ℤ) : Api σ ℤ := do
  let index ← luaAbsindexDll m i L index
  let _ ← luaPushstringDll m i L k
  let _ ← luaInsertDll m i L (-2)
  luaSettableDll m i L index

def luaSetglobalDll (s : ℤ) : Api σ ℤ := do
  if i.dllCdecl .luaSetglobal ≠ 0 then call m i .luaSetglobal [L,s]
  else luaSetfieldDll m i L (← getGlobalsIndex i) s

def luaPushglobaltableDll : Api σ ℤ := do
  if i.version ≥ 520 then luaRawgetiDll m i L i.registryIndex i.globalsIndex
  else luaPushvalueDll m i L (← getGlobalsIndex i)

def luaRawgetglobalDll (s : ℤ) : Api σ ℤ := do
  let _ ← luaPushglobaltableDll m i L
  let glb ← luaGettopDll m i L
  let _ ← luaPushstringDll m i L s
  let _ ← luaRawgetDll m i L glb
  luaRemoveDll m i L glb

def luaPushintegerDll (value : ℤ) : Api σ ℤ := do
  if i.dllCdecl .luaPushinteger ≠ 0 then call m i .luaPushinteger [L,value]
  else luaPushnumberDll m i L (m.toNumber value)

def luaTostringDll (index : ℤ) : Api σ ℤ := do
  if i.dllCdecl .luaTostring ≠ 0 then call m i .luaTostring [L,index]
  else call m i .luaTolstring [L,index,0]

def luaTolstringDll (index len : ℤ) : Api σ ℤ := do
  if i.dllCdecl .luaTolstring ≠ 0 then call m i .luaTolstring [L,index,len]
  else
    let string ← call m i .luaTostring [L,index]
    if len ≠ 0 then
      let length ← if string ≠ 0 then look (m.strlen string) else pure 0
      change (fun s => ((),m.store len length s))
    return string

def luaTonumberDll (index : ℤ) : Api σ ℤ := do
  if i.dllCdecl .luaTonumberx ≠ 0 then call m i .luaTonumberx [L,index,0]
  else call m i .luaTonumber [L,index]

def luaTointegerDll (index : ℤ) : Api σ ℤ := do
  if i.dllCdecl .luaTointegerx ≠ 0 then call m i .luaTointegerx [L,index,0]
  else if i.dllCdecl .luaTointegerx530 ≠ 0 then call m i .luaTointegerx530 [L,index,0]
  else if i.dllCdecl .luaTointeger ≠ 0 then call m i .luaTointeger [L,index]
  else return m.toInt (← luaTonumberDll m i L index)

def luaLoadbufferDll (reader memory chunkname mode : ℤ) : Api σ ℤ := do
  if i.dllCdecl .luaLoad ≠ 0 then call m i .luaLoad [L,reader,memory,chunkname,mode]
  else if i.dllCdecl .luaLoad510 ≠ 0 then call m i .luaLoad510 [L,reader,memory,chunkname]
  else
    assert false
    return 0

def luaCallDll (nargs nresults : ℤ) : Api σ ℤ := do
  if i.dllCdecl .luaCall ≠ 0 then call m i .luaCall [L,nargs,nresults]
  else call m i .luaCallk [L,nargs,nresults,0,0]

def luaPcallkDll (nargs nresults errfunc ctx k : ℤ) : Api σ ℤ := do
  if i.dllCdecl .luaPcallk530 ≠ 0 then
    call m i .luaPcallk530 [L,nargs,nresults,errfunc,ctx,k]
  else call m i .luaPcallk [L,nargs,nresults,errfunc,ctx,k]

def luaPcallDll (nargs nresults errfunc : ℤ) : Api σ ℤ := do
  if i.dllCdecl .luaPcallk ≠ 0 then luaPcallkDll m i L nargs nresults errfunc 0 0
  else if i.dllCdecl .luaPcallk530 ≠ 0 then
    call m i .luaPcallk530 [L,nargs,nresults,errfunc,0,0]
  else call m i .luaPcall [L,nargs,nresults,errfunc]

def luaNewtableDll : Api σ ℤ := do
  if i.dllCdecl .luaNewtable ≠ 0 then call m i .luaNewtable [L]
  else call m i .luaCreatetable [L,0,0]

/-- `LUA_NOREF` without the function. -/
def luaLRefDll (t : ℤ) : Api σ ℤ := do
  if i.dllCdecl .luaLRef ≠ 0 then call m i .luaLRef [L,t] else return -2

def luaNewuserdataDll (size : ℤ) : Api σ ℤ := do
  if i.dllCdecl .luaNewuserdatauv ≠ 0 then call m i .luaNewuserdatauv [L,size,1]
  else call m i .luaNewuserdata [L,size]

/-- Without the function a light userdata is made a thread, as Lua 5.0 lays them out. -/
def luaPushthreadDll : Api σ ℤ := do
  if i.dllCdecl .luaPushthread ≠ 0 then
    let _ ← call m i .luaPushthread [L]
    return 1
  else
    let _ ← luaPushlightuserdataDll m i L L
    if ← change (m.setThread false L) then return 1
    else if ← change (m.setThread true L) then return 1
    else
      let _ ← luaPopDll m i L 1
      change (fun s => ((),m.warnAboutThreads s))
      return 0

def findEnv (index : ℤ) : ℕ → ℤ → Api σ (ℤ × ℤ)
  | 0, _ => throw .endless
  | fuel+1, upidx => do
    let upname ← luaGetupvalueDll m i L index upidx
    if upname ≠ 0 then
      if ← look (m.isEnv upname) then return (upidx,upname)
      else
        let _ ← luaPopDll m i L 1
        findEnv index fuel (upidx+1)
    else return (upidx,upname)

def luaGetfenvDll (fuel : ℕ) (index : ℤ) : Api σ ℤ := do
  if i.dllCdecl .luaGetfenv ≠ 0 then call m i .luaGetfenv [L,index]
  else
    let index ← luaAbsindexDll m i L index
    let (_,upname) ← findEnv m i L index fuel 1
    if upname = 0 then
      let _ ← luaRawgetiDll m i L i.registryIndex i.globalsIndex
      if (← luaTypeDll m i L (-1)) = 0 then
        let _ ← luaPopDll m i L 1
        let _ ← luaNewtableDll m i L
    return 0

def luaSetfenvDll (fuel : ℕ) (index : ℤ) : Api σ ℤ := do
  if i.dllCdecl .luaSetfenv ≠ 0 then call m i .luaSetfenv [L,index]
  else
    let index ← luaAbsindexDll m i L index
    let (upidx,upname) ← findEnv m i L index fuel 1
    if upname ≠ 0 then
      let _ ← luaPopDll m i L 1
      let _ ← luaSetupvalueDll m i L index upidx
      return 1
    else
      let _ ← luaPopDll m i L 1
      return 0

def registerDebugLibrary (name : ℤ) : Api σ ℤ := do
  let _ ← luaPushcclosureDll m i L (i.handler .DecodaOutput) 0
  luaSetglobalDll m i L name

def setHookMode (mask : ℤ) : Api σ ℤ :=
  if mask = 0 then luaSethookDll m i L 0 0 0
  else luaSethookDll m i L (i.handler .HookHandler) mask 0

end Wrappers

inductive Call where
  | luaSettop (L index : ℤ)
  | luaGettop (L : ℤ)
  | luaGetinfo (L what ar : ℤ)
  | luaSettable (L index : ℤ)
  | luaRawset (L idx : ℤ)
  | luaType (L index : ℤ)
  | luaTypename (L type : ℤ)
  | luaCheckstack (L extra : ℤ)
  | luaGetlocal (L ar n : ℤ)
  | luaSetlocal (L ar n : ℤ)
  | luaGetstack (L level ar : ℤ)
  | luaPushnil (L : ℤ)
  | luaPushcclosure (L fn n : ℤ)
  | luaPushvalue (L index : ℤ)
  | luaPushnumber (L value : ℤ)
  | luaPushlightuserdata (L p : ℤ)
  | luaToboolean (L index : ℤ)
  | luaTocfunction (L index : ℤ)
  | luaTouserdata (L index : ℤ)
  | luaNext (L index : ℤ)
  | luaRawequal (L idx1 idx2 : ℤ)
  | luaGetmetatable (L index : ℤ)
  | luaSetmetatable (L index : ℤ)
  | luaLUnref (L t ref : ℤ)
  | luaGetupvalue (L funcindex n : ℤ)
  | luaSetupvalue (L funcindex n : ℤ)
  | luaGethookmask (L : ℤ)
  | luaAbsindex (L index : ℤ)
  | luaUpvalueindex (n : ℤ)
  | luaRemove (L index : ℤ)
  | luaInsert (L index : ℤ)
  | luaGettable (L index : ℤ)
  | luaRawget (L idx : ℤ)
  | luaRawgeti (L idx n : ℤ)
  | luaPushstring (L s : ℤ)
  | luaPushglobaltable (L : ℤ)
  | luaRawgetglobal (L s : ℤ)
  | luaPushinteger (L value : ℤ)
  | luaTostring (L index : ℤ)
  | luaTolstring (L index len : ℤ)
  | luaTonumber (L index : ℤ)
  | luaTointeger (L index : ℤ)
  | luaLoadbuffer (L reader memory chunkname mode : ℤ)
  | luaCall (L nargs nresults : ℤ)
  | luaPcall (L nargs nresults errfunc : ℤ)
  | luaNewtable (L : ℤ)
  | luaLRef (L t : ℤ)
  | luaNewuserdata (L size : ℤ)
  | luaPushthread (L : ℤ)
  | luaGetfenv (L index : ℤ)
  | luaSetfenv (L index : ℤ)
  | registerDebugLibrary (L name : ℤ)
  | setHookMode (L mask : ℤ)

/-- `fuel` bounds the loops for `_ENV`. -/
def Call.run (fuel : ℕ) : Call → Api σ ℤ
  | .luaSettop L index => luaSettopDll m i L index
  | .luaGettop L => luaGettopDll m i L
  | .luaGetinfo L what ar => luaGetinfoDll m i L what ar
  | .luaSettable L index => luaSettableDll m i L index
  | .luaRawset L idx => luaRawsetDll m i L idx
  | .luaType L index => luaTypeDll m i L index
  | .luaTypename L type => luaTypenameDll m i L type
  | .luaCheckstack L extra => luaCheckstackDll m i L extra
  | .luaGetlocal L ar n => luaGetlocalDll m i L ar n
  | .luaSetlocal L ar n => luaSetlocalDll m i L ar n
  | .luaGetstack L level ar => luaGetstackDll m i L level ar
  | .luaPushnil L => luaPushnilDll m i L
  | .luaPushcclosure L fn n => luaPushcclosureDll m i L fn n
  | .luaPushvalue L index => luaPushvalueDll m i L index
  | .luaPushnumber L value => luaPushnumberDll m i L value
  | .luaPushlightuserdata L p => luaPushlightuserdataDll m i L p
  | .luaToboolean L index => luaTobooleanDll m i L index
  | .luaTocfunction L index => luaTocfunctionDll m i L index
  | .luaTouserdata L index => luaTouserdataDll m i L index
  | .luaNext L index => luaNextDll m i L index
  | .luaRawequal L idx1 idx2 => luaRawequalDll m i L idx1 idx2
  | .luaGetmetatable L index => luaGetmetatableDll m i L index
  | .luaSetmetatable L index => luaSetmetatableDll m i L index
  | .luaLUnref L t ref => luaLUnrefDll m i L t ref
  | .luaGetupvalue L funcindex n => luaGetupvalueDll m i L funcindex n
  | .luaSetupvalue L funcindex n => luaSetupvalueDll m i L funcindex n
  | .luaGethookmask L => luaGethookmaskDll m i L
  | .luaAbsindex L index => luaAbsindexDll m i L index
  | .luaUpvalueindex n => luaUpvalueindexDll i n
  | .luaRemove L index => luaRemoveDll m i L index
  | .luaInsert L index => luaInsertDll m i L index
  | .luaGettable L index => luaGettableDll m i L index
  | .luaRawget L idx => luaRawgetDll m i L idx
  | .luaRawgeti L idx n => luaRawgetiDll m i L idx n
  | .luaPushstring L s => luaPushstringDll m i L s
  | .luaPushglobaltable L => luaPushglobaltableDll m i L
  | .luaRawgetglobal L s => luaRawgetglobalDll m i L s
  | .luaPushinteger L value => luaPushintegerDll m i L value
  | .luaTostring L index => luaTostringDll m i L index
  | .luaTolstring L index len => luaTolstringDll m i L index len
  | .luaTonumber L index => luaTonumberDll m i L index
  | .luaTointeger L index => luaTointegerDll m i L index
  | .luaLoadbuffer L reader memory chunkname mode =>
      luaLoadbufferDll m i L reader memory chunkname mode
  | .luaCall L nargs nresults => luaCallDll m i L nargs nresults
  | .luaPcall L nargs nresults errfunc => luaPcallDll m i L nargs nresults errfunc
  | .luaNewtable L => luaNewtableDll m i L
  | .luaLRef L t => luaLRefDll m i L t
  | .luaNewuserdata L size => luaNewuserdataDll m i L size
  | .luaPushthread L => luaPushthreadDll m i L
  | .luaGetfenv L index => luaGetfenvDll m i L fuel index
  | .luaSetfenv L index => luaSetfenvDll m i L fuel index
  | .registerDebugLibrary L name => ApiCalls.registerDebugLibrary m i L name
  | .setHookMode L mask => ApiCalls.setHookMode m i L mask

inductive Script where
  | done
  | call (c : Call) (next : ℤ → Script)

def Script.run (fuel : ℕ) : Script → Api σ Unit
  | .done => return
  | .call c next => do
    let answer ← c.run m i fuel
    (next answer).run fuel

section Safety

variable {m : Machine σ} {i : LuaInterface} {α β : Type}

/-- Only a loop without end is left. -/
def Safe (p : Api σ α) : Prop := ∀ s e, p s = .error e → e = .endless

theorem safe_pure (a : α) : Safe (pure a : Api σ α) := by
  intro s e h
  cases h

theorem safe_bind {p : Api σ α} {next : α → Api σ β} (hp : Safe p) (hnext : ∀ a, Safe (next a)) :
    Safe (p >>= next) := by
  intro s e h
  change (p s).bind (fun r => next r.1 r.2) = _ at h
  cases hrun : p s with
  | error e' =>
    rw [hrun] at h
    cases h
    exact hp s _ hrun
  | ok r =>
    rw [hrun] at h
    exact hnext r.1 r.2 e h

theorem safe_call {f : Field} (args : List ℤ) (h : i.Has f) : Safe (call m i f args) := by
  intro s e hrun
  rw [call, if_neg h] at hrun
  cases hrun

theorem safe_if {f : Field} {p q : Api σ α} (hp : i.Has f → Safe p) (hq : ¬ i.Has f → Safe q) :
    Safe (if i.dllCdecl f ≠ 0 then p else q) := by
  split
  · next h => exact hp h
  · next h => exact hq h

/-- A pointer that is called where it is there, and else another. -/
theorem safe_either {f g : Field} {args args' : List ℤ} (h : i.Has f ∨ i.Has g) :
    Safe (if i.dllCdecl f ≠ 0 then call m i f args else call m i g args') :=
  safe_if (fun hf => safe_call args hf) (fun hf => safe_call args' (h.resolve_left hf))

theorem safe_look (f : σ → α) : Safe (look f) := by
  intro s e h
  cases h

theorem safe_change (f : σ → α × σ) : Safe (change f) := by
  intro s e h
  cases h

theorem safe_endless : Safe (throw .endless : Api σ α) := by
  intro s e h
  cases h
  rfl

variable (h : Complete i) (L : ℤ)

include h

theorem safe_plain {f : Field} (args : List ℤ) (hf : f ∈ plain) : Safe (call m i f args) :=
  safe_call args (h.plain f hf)

theorem safe_settop (index : ℤ) : Safe (luaSettopDll m i L index) := safe_plain h _ (by decide)

theorem safe_gettop : Safe (luaGettopDll m i L) := safe_plain h _ (by decide)

theorem safe_absindex (index : ℤ) : Safe (luaAbsindexDll m i L index) := by
  refine safe_if (fun hf => safe_call _ hf) fun _ => ?_
  split
  · exact safe_pure _
  · exact safe_bind (safe_gettop h L) fun _ => safe_pure _

theorem safe_remove (index : ℤ) : Safe (luaRemoveDll m i L index) :=
  safe_if (fun hf => safe_bind (safe_call _ hf) fun _ => safe_settop h L _)
    (fun hf => safe_call _ (h.remove.resolve_left hf))

theorem safe_insert (index : ℤ) : Safe (luaInsertDll m i L index) := safe_either h.insert

theorem safe_gettable (index : ℤ) : Safe (luaGettableDll m i L index) := by
  have hgettable := h.gettable
  rw [luaGettableDll]
  split
  · next hv =>
    rw [if_pos hv] at hgettable
    exact safe_call _ hgettable
  · next hv =>
    rw [if_neg hv] at hgettable
    exact safe_call _ hgettable

theorem safe_rawget (idx : ℤ) : Safe (luaRawgetDll m i L idx) := safe_either h.rawget

theorem safe_rawgeti (idx n : ℤ) : Safe (luaRawgetiDll m i L idx n) := safe_either h.rawgeti

theorem safe_pushstring (s : ℤ) : Safe (luaPushstringDll m i L s) := safe_either h.pushstring

theorem safe_tonumber (index : ℤ) : Safe (luaTonumberDll m i L index) := safe_either h.tonumber

theorem safe_newtable : Safe (luaNewtableDll m i L) := safe_either h.newtable

theorem safe_sethook (f mask count : ℤ) : Safe (luaSethookDll m i L f mask count) :=
  safe_if (fun hf => safe_bind (safe_call _ hf) fun _ => safe_pure _)
    (fun hf => safe_call _ (h.sethook.resolve_left hf))

theorem safe_pushinteger (value : ℤ) : Safe (luaPushintegerDll m i L value) :=
  safe_if (fun hf => safe_call _ hf) (fun _ => safe_plain h _ (by decide))

theorem safe_tointeger (index : ℤ) : Safe (luaTointegerDll m i L index) := by
  refine safe_if (fun hf => safe_call _ hf) fun _ => ?_
  refine safe_if (fun hf => safe_call _ hf) fun _ => ?_
  refine safe_if (fun hf => safe_call _ hf) fun _ => ?_
  exact safe_bind (safe_tonumber h L index) fun _ => safe_pure _

theorem safe_tolstring (index len : ℤ) : Safe (luaTolstringDll m i L index len) := by
  refine safe_if (fun hf => safe_call _ hf) fun hf => ?_
  refine safe_bind (safe_call _ (h.tolstring.resolve_right hf)) fun string => ?_
  split
  · dsimp only
    split
    · exact safe_bind (safe_look _) fun length => safe_bind (safe_change _) fun _ => safe_pure _
    · exact safe_bind (safe_pure _) fun length => safe_bind (safe_change _) fun _ => safe_pure _
  · exact safe_pure _

theorem safe_loadbuffer (reader memory chunkname mode : ℤ) :
    Safe (luaLoadbufferDll m i L reader memory chunkname mode) :=
  safe_if (fun hf => safe_call _ hf) fun hf =>
    safe_if (fun hf' => safe_call _ hf') fun hf' => absurd h.load (not_or.mpr ⟨hf',hf⟩)

theorem safe_pcall (nargs nresults errfunc : ℤ) :
    Safe (luaPcallDll m i L nargs nresults errfunc) := by
  refine safe_if (fun hf => safe_either (.inr hf)) fun hf => ?_
  refine safe_if (fun hf' => safe_call _ hf') fun hf' => ?_
  exact safe_call _ (h.pcall.resolve_left (not_or.mpr ⟨hf',hf⟩))

theorem safe_pushthread : Safe (luaPushthreadDll m i L) :=
  safe_if (fun hf => safe_bind (safe_call _ hf) fun _ => safe_pure _) fun hf =>
      absurd h.pushthread hf

theorem safe_findEnv (fuel : ℕ) (index upidx : ℤ) : Safe (findEnv m i L index fuel upidx) := by
  induction fuel generalizing upidx with
  | zero => exact safe_endless
  | succ fuel ih =>
    refine safe_bind (safe_plain h _ (by decide)) fun upname => ?_
    split
    · refine safe_bind (safe_look _) fun b => ?_
      split
      · exact safe_pure _
      · exact safe_bind (safe_settop h L _) fun _ => ih _
    · exact safe_pure _

theorem safe_getfenv (fuel : ℕ) (index : ℤ) : Safe (luaGetfenvDll m i L fuel index) := by
  refine safe_if (fun hf => safe_call _ hf) fun _ => ?_
  refine safe_bind (safe_absindex h L index) fun index =>
    safe_bind (safe_findEnv h L fuel index 1) fun r => ?_
  dsimp only
  split
  · refine safe_bind (safe_rawgeti h L _ _) fun _ =>
      safe_bind (safe_plain h _ (by decide)) fun type => ?_
    split
    · exact safe_bind (safe_settop h L _) fun _ => safe_bind (safe_newtable h L) fun _ =>
      safe_pure _
    · exact safe_pure _
  · exact safe_pure _

theorem safe_setfenv (fuel : ℕ) (index : ℤ) : Safe (luaSetfenvDll m i L fuel index) := by
  refine safe_if (fun hf => safe_call _ hf) fun _ => ?_
  refine safe_bind (safe_absindex h L index) fun index =>
    safe_bind (safe_findEnv h L fuel index 1) fun r => ?_
  dsimp only
  split
  · exact safe_bind (safe_settop h L _) fun _ => safe_bind (safe_plain h _ (by decide)) fun _ =>
      safe_pure _
  · exact safe_bind (safe_settop h L _) fun _ => safe_pure _

variable (hv : i.version ≥ 510)

include hv

omit h in
theorem safe_getGlobalsIndex (hlate : ¬ i.version ≥ 520) : Safe (getGlobalsIndex i : Api σ ℤ) := by
  refine safe_bind ?_ fun _ => safe_pure _
  have hassert : (500 ≤ i.version && i.version < 520) = true := by
    simp only [Bool.and_eq_true, decide_eq_true_eq]
    omega
  rw [hassert]
  intro s e hrun
  cases hrun

omit h in
theorem safe_upvalueindex (n : ℤ) : Safe (luaUpvalueindexDll i n : Api σ ℤ) := by
  rw [luaUpvalueindexDll]
  split
  · exact safe_pure _
  · next hlate => exact safe_bind (safe_getGlobalsIndex hv hlate) fun _ => safe_pure _

theorem safe_pushglobaltable : Safe (luaPushglobaltableDll m i L) := by
  rw [luaPushglobaltableDll]
  split
  · exact safe_rawgeti h L _ _
  · next hlate =>
    exact safe_bind (safe_getGlobalsIndex hv hlate) fun _ => safe_plain h _ (by decide)

theorem safe_rawgetglobal (s : ℤ) : Safe (luaRawgetglobalDll m i L s) :=
  safe_bind (safe_pushglobaltable h L hv) fun _ => safe_bind (safe_gettop h L) fun _ =>
    safe_bind (safe_pushstring h L s) fun _ => safe_bind (safe_rawget h L _) fun _ =>
    safe_remove h L _

/-- From 5.2 on there is no index of the globals to fall back to. -/
theorem safe_setglobal (hglobal : i.version ≥ 520 → i.Has .luaSetglobal) (s : ℤ) :
    Safe (luaSetglobalDll m i L s) := by
  refine safe_if (fun hf => safe_call _ hf) fun hf => ?_
  refine safe_bind (safe_getGlobalsIndex hv (fun hlate => hf (hglobal hlate))) fun index => ?_
  exact safe_bind (safe_absindex h L index) fun _ => safe_bind (safe_pushstring h L s) fun _ =>
    safe_bind (safe_insert h L _) fun _ => safe_plain h _ (by decide)

theorem safe_run (fuel : ℕ) (hunref : i.Has .luaLUnref)
    (hglobal : i.version ≥ 520 → i.Has .luaSetglobal)
    (c : Call) : Safe (c.run m i fuel) := by
  cases c with
  | luaLUnref => exact safe_call _ hunref
  | luaAbsindex L index => exact safe_absindex h L index
  | luaUpvalueindex n => exact safe_upvalueindex hv n
  | luaRemove L index => exact safe_remove h L index
  | luaInsert L index => exact safe_insert h L index
  | luaGettable L index => exact safe_gettable h L index
  | luaRawget L idx => exact safe_rawget h L idx
  | luaRawgeti L idx n => exact safe_rawgeti h L idx n
  | luaPushstring L s => exact safe_pushstring h L s
  | luaPushglobaltable L => exact safe_pushglobaltable h L hv
  | luaRawgetglobal L s => exact safe_rawgetglobal h L hv s
  | luaPushinteger L value => exact safe_pushinteger h L value
  | luaTostring L index => exact safe_either h.tolstring
  | luaTolstring L index len => exact safe_tolstring h L index len
  | luaTonumber L index => exact safe_tonumber h L index
  | luaTointeger L index => exact safe_tointeger h L index
  | luaLoadbuffer L reader memory chunkname mode =>
      exact safe_loadbuffer h L reader memory chunkname mode
  | luaCall L nargs nresults => exact safe_either h.call.symm
  | luaPcall L nargs nresults errfunc => exact safe_pcall h L nargs nresults errfunc
  | luaNewtable L => exact safe_newtable h L
  | luaLRef L t => exact safe_if (fun hf => safe_call _ hf) fun _ => safe_pure _
  | luaNewuserdata L size => exact safe_either h.newuserdata
  | luaPushthread L => exact safe_pushthread h L
  | luaGetfenv L index => exact safe_getfenv h L fuel index
  | luaSetfenv L index => exact safe_setfenv h L fuel index
  | registerDebugLibrary L name =>
    exact safe_bind (safe_plain h _ (by decide)) fun _ => safe_setglobal h L hv hglobal name
  | setHookMode L mask =>
    rw [Call.run, ApiCalls.setHookMode]
    split
    · exact safe_sethook h L 0 0 0
    · exact safe_sethook h L _ mask 0
  | _ => exact safe_plain h _ (by decide)

theorem safe_script (fuel : ℕ) (hunref : i.Has .luaLUnref)
    (hglobal : i.version ≥ 520 → i.Has .luaSetglobal)
    (script : Script) : Safe (script.run m i fuel) := by
  induction script with
  | done => exact safe_pure ()
  | call c next ih => exact safe_bind (safe_run h hv fuel hunref hglobal c) ih

end Safety

section Loaded

variable {t : Trampolines} {hooked : List Address} {symbols : Symbols}
    {r : LuaInterface × List Address}

def idle : Machine Unit where
  invoke _ _ s := (0,s)
  isEnv _ _ := true
  strlen _ _ := 0
  store _ _ s := s
  setThread _ _ s := (false,s)
  warnAboutThreads s := s
  toNumber n := n
  toInt n := n

theorem unsafe_call {i : LuaInterface} {c : Call} {e : Fault} (hrun : c.run idle i 0 () = .error e)
    (he : e ≠ .endless) :
    ¬ ∀ (σ : Type) (m : Machine σ) (fuel : ℕ) (script : Script), Safe (script.run m i fuel) := by
  intro h
  refine he (h Unit idle 0 (.call c fun _ => .done) () e ?_)
  change (c.run idle i 0 ()).bind _ = _
  rw [hrun]
  rfl

theorem bind_error {α β : Type} {p : Api σ α} {s : σ} {e : Fault} (h : p s = .error e)
    (next : α → Api σ β) :
    (p >>= next) s = .error e := by
  change (p s).bind _ = _
  rw [h]
  rfl

theorem bind_ok {α β : Type} {p : Api σ α} {s : σ} {a : α} {s' : σ} (h : p s = .ok (a,s'))
    (next : α → Api σ β) : (p >>= next) s = next a s' := by
  change (p s).bind _ = _
  rw [h]
  rfl

variable {i : LuaInterface}

theorem getGlobalsIndex_fails (h : i.version < 500 ∨ i.version ≥ 520) (s : σ) :
    (getGlobalsIndex i : Api σ ℤ) s = .error .assertion := by
  have hassert : (500 ≤ i.version && i.version < 520) = false := by
    rw [Bool.and_eq_false_iff, decide_eq_false_iff_not, decide_eq_false_iff_not]
    omega
  refine bind_error ?_ _
  rw [hassert]
  rfl

theorem unref_fails (h : ¬ i.Has .luaLUnref) :
    (Call.luaLUnref 0 0 0).run idle i 0 () = .error (.null .luaLUnref) :=
  if_pos (not_not.mp h)

theorem upvalueindex_fails (h : i.version = 401) :
    (Call.luaUpvalueindex 1).run idle i 0 () = .error .assertion := by
  rw [Call.run, luaUpvalueindexDll, if_neg (by omega)]
  exact bind_error (getGlobalsIndex_fails (.inl (by omega)) ()) _

theorem loadbuffer_fails (h : ¬ i.Has .luaLoad) (h510 : ¬ i.Has .luaLoad510) :
    (Call.luaLoadbuffer 0 0 0 0 0).run idle i 0 () = .error .assertion := by
  rw [LuaInterface.Has] at h h510
  rw [Call.run, luaLoadbufferDll, if_neg h, if_neg h510]
  rfl

theorem register_fails (hv : i.version ≥ 520) (hpush : i.Has .luaPushcclosure)
    (h : ¬ i.Has .luaSetglobal) :
    (Call.registerDebugLibrary 0 0).run idle i 0 () = .error .assertion := by
  have hpushed : (luaPushcclosureDll idle i 0 (i.handler .DecodaOutput) 0) () = .ok (0,()) :=
    if_neg hpush
  rw [LuaInterface.Has] at h
  rw [Call.run, registerDebugLibrary, bind_ok hpushed, luaSetglobalDll, if_neg h]
  exact bind_error (getGlobalsIndex_fails (.inr hv) ()) _

/-- Whatever the backend does with a module that was taken, it calls no missing function and fails
no assertion, exactly if the module is of version 5.1 or later and has `luaL_unref`, and from 5.2
on `lua_setglobal`. -/
theorem api_safe (h : loadLuaFunctions t hooked symbols = .ok r) (hh : Hookable t hooked symbols) :
    (∀ (σ : Type) (m : Machine σ) (fuel : ℕ) (script : Script), Safe (script.run m r.1 fuel)) ↔
      r.1.version ≥ 510 ∧ (symbols .luaLUnref).getD 0 ≠ 0 ∧
        (r.1.version ≥ 520 → (symbols .luaSetglobal).getD 0 ≠ 0) := by
  have htaken := load_taken h hh
  generalize r.1 = i at htaken ⊢
  by_cases hv : i.version ≥ 510
  · have hcomplete := htaken.late hv
    have hunref : i.Has .luaLUnref ↔ _ := htaken.optional hv _ (by decide) (by decide)
    have hsetglobal : i.Has .luaSetglobal ↔ _ := htaken.optional hv _ (by decide) (by decide)
    constructor
    · intro hsafe
      refine ⟨hv,?_,fun hlate => ?_⟩
      · rw [← hunref]
        intro hnone
        exact unsafe_call (unref_fails (not_not.mpr hnone)) Fault.noConfusion hsafe
      · rw [← hsetglobal]
        intro hnone
        exact unsafe_call (register_fails hlate (hcomplete.plain _ (by decide)) (not_not.mpr hnone))
            Fault.noConfusion hsafe
    · rintro ⟨-,hu,hg⟩ σ m fuel script
      exact safe_script hcomplete hv fuel (hunref.mpr hu)
          (fun hlate => hsetglobal.mpr (hg hlate)) script
  · refine iff_of_false ?_ fun hr => hv hr.1
    rcases htaken.early hv with h401 | ⟨-,hload,hload510⟩
    · exact unsafe_call (upvalueindex_fails h401) Fault.noConfusion
    · exact unsafe_call (loadbuffer_fails hload hload510) Fault.noConfusion

def lua51 : Symbols := fun f =>
  if !f.named || f ∈ [.luaTag,.luaLMakeseed,.luaGetctx,.luaOpen,.luaAbsindex,.luaGetglobal,
      .luaSetglobal,.luaTointegerx,.luaTostring,.luaTonumberx,.luaCallk,.luaPcallk,
      .luaNewtable,.luaRotate,.luaNewuserdatauv,.luaLLoadfilex] then none
  else some (f.ctorIdx + 1)

def forwards : Trampolines :=
  ⟨fun _ => 1000,fun _ => true,fun a => a + 2000,fun _ => Nat.succ_ne_zero _⟩

theorem lua51_hookable : Hookable forwards [] lua51 := by
  have haddress {f : Field} {a : Address} (h : lua51 f = some a) : a = f.ctorIdx + 1 := by
    rw [lua51] at h
    split at h
    · cases h
    · injection h with h
      exact h.symm
  refine ⟨fun _ _ _ _ _ => ⟨rfl,List.not_mem_nil⟩,fun f hf g hg a _ h h' => ?_⟩
  have hsame : f.ctorIdx = g.ctorIdx := Nat.succ.inj ((haddress h).symm.trans (haddress h'))
  have hinjective : ∀ f ∈ intercepted, ∀ g ∈ intercepted, f.ctorIdx = g.ctorIdx → f = g := by decide
  exact hinjective f hf g hg hsame

/-- A module of Lua 5.1 is taken, and safe whatever the backend does. -/
theorem lua51_safe : ∃ r, loadLuaFunctions forwards [] lua51 = .ok r ∧
    ∀ (σ : Type) (m : Machine σ) (fuel : ℕ) (script : Script), Safe (script.run m r.1 fuel) := by
  have hversion : (loadLuaFunctions forwards [] lua51).map (fun r => r.1.version) = .ok 510 := rfl
  cases hload : loadLuaFunctions forwards [] lua51 with
  | error e =>
    rw [hload] at hversion
    cases hversion
  | ok r =>
    rw [hload] at hversion
    have hv : r.1.version = 510 := Except.ok.inj hversion
    exact ⟨r,rfl,(api_safe hload lua51_hookable).mpr ⟨by omega,by decide,by omega⟩⟩

end Loaded

end Vecoda.ApiCalls

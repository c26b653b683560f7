import Vecoda.TableCache
import Vecoda.TableDocument

/-!
# GetValueAsText on the stack

The printing of a value as a program on the Lua stack, and beside it what it
comes to without the stack: the program leaves the stack as it was and prints
what the other prints. A null pointer that is read as a string, or linked into
the document, ends both. The fuel bounds the calls of GetValueAsText that are
open at once, and the rounds of each loop over the fields of a table.
-/

set_option autoImplicit false

namespace Vecoda.ValueText
open MessagePipe LuaApi TableCache
open LuaText (text cstr)
open LuaStack (Status Result adjust)
open TableDocument (TiXmlElement writeXmlNode writeValue writeFunction bracketed errorAsText tableNode
  stringAsText sprintfD)

/-- What is dereferenced though it is null. -/
inductive Null where
  | string
  | node

/-- The library, and what the backend itself brings to the printing: the classes it knows
by references to their metatables, and the numbers of its scripts. -/
structure Printer (σ : Type) where
  lua : Lua σ
  addresses : Addresses
  classInfos : List (Bytes × ℤ)
  scriptIndex : Bytes → ℤ
  wideCharToMultiByte : Bytes → Bytes

def bare {σ : Type} (lua : Lua σ) : Printer σ where
  lua := lua
  addresses := ⟨0,1,Nat.zero_ne_one⟩
  classInfos := []
  scriptIndex _ := 0
  wideCharToMultiByte _ := []

variable {σ : Type} (p : Printer σ)

def Printer.debuggee : TableDocument.Debuggee := ⟨fun _ => [],fun _ => 0,p.wideCharToMultiByte⟩

def typeName : Value → Bytes
  | .nil => text "nil"
  | .boolean _ => text "boolean"
  | .integer _ => text "number"
  | .float _ => text "number"
  | .string _ => text "string"
  | .table _ => text "table"
  | .function _ => text "function"
  | .userdata _ => text "userdata"
  | .lightuserdata _ => text "userdata"
  | .thread _ => text "thread"
  | .cdata _ => text "cdata"

def ownText : Value → Bytes
  | .nil => text "nil"
  | .boolean b => text (if b then "true" else "false")
  | .thread _ => text "thread"
  | _ => []

section Program

abbrev Printing (σ α : Type) := Program Null σ α

def classNameFor : List (Bytes × ℤ) → Printing σ (Option Bytes)
  | [] => do
    pop 1
    return none
  | (name,metaTableRef)::rest => do
    rawgeti p.lua .registry metaTableRef
    let v ← look (-1)
    let mt ← look (-2)
    if v = mt then do
      pop 2
      return some name
    else do
      pop 1
      classNameFor rest

def getClassNameForUserdata (ud : ℤ) : Printing σ (Option Bytes) := do
  let granted ← checkstack p.lua 2
  if granted then do
    let found ← getmetatable p.lua ud
    if found then classNameFor p p.classInfos else return none
  else return none

def callMetaMethod (valueIndex : ℤ) (method : Bytes) (numResults : Option ℕ) :
    Printing σ (Option Status) := do
  let granted ← checkstack p.lua 3
  if granted then do
    let found ← getmetatable p.lua valueIndex
    if found then do
      let metaTableIndex ← gettop
      push (.string method)
      gettable p.lua metaTableIndex
      let f ← look (-1)
      if f = .nil then do
        pop 1
        remove metaTableIndex
        return none
      else do
        pushvalue valueIndex
        let result ← pcall p.lua 1 numResults
        remove metaTableIndex
        return some result
    else return none
  else return none

abbrev Text (σ : Type) := ℤ → ℤ → Option Bytes → Bool → Printing σ (Option TiXmlElement)

def linkedText (asText : Text σ) (n maxDepth : ℤ) (typeNameOverride : Option Bytes) (displayAsKey : Bool) :
    Printing σ TiXmlElement := do
  let node ← asText n maxDepth typeNameOverride displayAsKey
  match node with
  | some x => pure x
  | none => halt (.fault .node)

def watchedText (asText : Text σ) (stackStart maxDepth : ℤ) (className : Bytes) (displayAsKey : Bool) :
    Printing σ (Option TiXmlElement × Bytes) := do
  let tableIndex ← gettop
  let numResults := tableIndex-stackStart
  if numResults = 0 then do
    push .nil
    let node ← asText (tableIndex+1) maxDepth (some className) displayAsKey
    pop 1
    return (node,className)
  else if 1 < numResults then do
    let first ← look (-numResults)
    match p.lua.tostring first with
    | none => halt (.fault .string)
    | some name => do
      let node ← asText tableIndex maxDepth (some (cstr name)) displayAsKey
      pop numResults.toNat
      return (node,cstr name)
  else do
    let node ← asText tableIndex maxDepth (some className) displayAsKey
    pop 1
    return (node,className)

def failedText : Printing σ (Option TiXmlElement) := do
  let error ← look (-1)
  pop 1
  return some (errorAsText (p.lua.tostring error))

def stringText (className : Bytes) : Printing σ (Option TiXmlElement) := do
  let string ← look (-1)
  pop 1
  return (p.lua.tostring string).map (fun string => writeValue (cstr string) className)

def classNameOf (temp : Option Bytes) : Bytes :=
  let className := (temp.map cstr).getD []
  if className = [] then text "userdata" else className

def addressText (className : Bytes) (displayAsKey : Bool) (v : Value) : TiXmlElement :=
  writeValue (bracketed displayAsKey (text "0x" ++ p.lua.pointer v)) className

def metaText (asText : Text σ) (valueIndex maxDepth : ℤ) (className : Bytes) (displayAsKey : Bool) :
    Printing σ (Option TiXmlElement × Bytes) := do
  let watch ← callMetaMethod p valueIndex (text "__towatch") none
  match watch with
  | some .ok => watchedText p asText valueIndex maxDepth className displayAsKey
  | some _ => do
    let node ← failedText p
    return (node,className)
  | none => do
    let called ← callMetaMethod p valueIndex (text "__tostring") (some 1)
    match called with
    | some .ok => do
      let node ← stringText p className
      return (node,className)
    | some _ => do
      let node ← failedText p
      return (node,className)
    | none => return (none,className)

def userdataText (asText : Text σ) (maxDepth : ℤ) (displayAsKey : Bool) : Printing σ TiXmlElement := do
  let temp ← getClassNameForUserdata p (-1)
  let valueIndex ← gettop
  let (node,className) ← metaText p asText valueIndex maxDepth (classNameOf temp) displayAsKey
  let v ← look valueIndex
  return node.getD (addressText p className displayAsKey v)

def elementText (asText : Text σ) (maxDepth : ℤ) : Printing σ TiXmlElement := do
  let key ← linkedText asText (-2) (maxDepth-1) none true
  let value ← linkedText asText (-1) (maxDepth-1) none false
  return .node (text "element") [] [.node (text "key") [] [key],.node (text "data") [] [value]]

def tableAttributes (t maxDepth : ℤ) : Printing σ (List (Bytes × Bytes)) := do
  push .nil
  let filled ← next p.lua t
  if filled then do
    pop 2
    if maxDepth ≤ 0 then do
      let reference ← cacheTable p.lua p.addresses t
      return [(text "reference",sprintfD reference)]
    else return []
  else return [(text "empty",sprintfD 1)]

def tableElements (rounds : ℕ) (asText : Text σ) (t maxDepth : ℤ) : Printing σ (List TiXmlElement) :=
  if 0 < maxDepth then forNext p.lua t (elementText asText maxDepth) rounds else pure []

def getTableAsText (rounds : ℕ) (asText : Text σ) (t maxDepth : ℤ) (typeName : Bytes) :
    Printing σ (Option TiXmlElement) := do
  let granted ← checkstack p.lua 2
  if granted then do
    let t ← absindex t
    let elements ← tableElements p rounds asText t maxDepth
    let attributes ← tableAttributes p t maxDepth
    return some (tableNode typeName attributes elements)
  else return none

def plainText (typeName : Bytes) (displayAsKey : Bool) (w : σ) (v : Value) : TiXmlElement :=
  match v with
  | .function _ =>
    writeFunction (p.scriptIndex (p.lua.source w v)) (p.lua.lineDefined w v-1)
  | .string s => writeValue (stringAsText p.debuggee displayAsKey s) typeName
  | v => writeValue (bracketed displayAsKey (((p.lua.tostring v).map cstr).getD (ownText v))) typeName

def duplicateText (rounds : ℕ) (asText : Text σ) (maxDepth : ℤ) (typeName : Bytes) (displayAsKey : Bool)
    (v : Value) : Printing σ (Option TiXmlElement) :=
  match v with
  | .table _ => getTableAsText p rounds asText (-1) (maxDepth-1) typeName
  | .userdata _ => do
    let node ← userdataText p asText maxDepth displayAsKey
    return some node
  | .lightuserdata _ => do
    let node ← userdataText p asText maxDepth displayAsKey
    return some node
  | v => do
    let w ← world
    return some (plainText p typeName displayAsKey w v)

def valueText (rounds : ℕ) (asText : Text σ) (n maxDepth : ℤ) (typeNameOverride : Option Bytes)
    (displayAsKey : Bool) : Printing σ (Option TiXmlElement) := do
  let granted ← checkstack p.lua 1
  if granted then do
    pushvalue n
    let v ← look (-1)
    let node ← duplicateText p rounds asText maxDepth (typeNameOverride.getD (typeName v)) displayAsKey v
    pop 1
    return node
  else return none

def getValueAsText : ℕ → Text σ
  | 0 => fun _ _ _ _ => halt .endless
  | fuel+1 => valueText p fuel (getValueAsText fuel)

end Program

section Stackless

/-- What printing gives without the stack, of whose height only `lua_checkstack` knows. -/
abbrev Outcome (σ α : Type) := Except (Fault Null) (α × σ)

abbrev Shown (σ : Type) := ℕ → ℤ → Option Bytes → Bool → Value → σ → Outcome σ (Option TiXmlElement)

def classNameForUserdata (h : ℕ) (v : Value) (w : σ) : Option Bytes :=
  if p.lua.checkstack w h 2 then
    match p.lua.getmetatable w v with
    | some mt => (p.classInfos.find? (fun c =>
        p.lua.rawget w p.lua.registry (.integer c.2) = .table mt)).map Prod.fst
    | none => none
  else none

def status : Result Value → Status
  | .returns _ => .ok
  | .raises _ => .errRun

def left : Result Value → List Value
  | .returns vs => vs
  | .raises e => [e]

def metaMethod (h : ℕ) (v : Value) (method : Bytes) (numResults : Option ℕ) (w : σ) :
    Outcome σ (Option (Result Value)) :=
  if p.lua.checkstack w h 3 then
    match p.lua.getmetatable w v with
    | none => .ok (none,w)
    | some mt =>
      match p.lua.gettable w (.table mt) (.string method) with
      | .error e => .error (.raised e)
      | .ok (f,w) =>
        if f = .nil then .ok (none,w)
        else
          match p.lua.call w f [v] with
          | (.returns vs,w) => .ok (some (.returns (adjust .nil numResults vs)),w)
          | (.raises e,w) => .ok (some (.raises e),w)
  else .ok (none,w)

def watched (shown : Shown σ) (h : ℕ) (maxDepth : ℤ) (className : Bytes) (displayAsKey : Bool)
    (results : List Value) (w : σ) : Outcome σ (Option TiXmlElement × Bytes) :=
  match results with
  | [] => (shown (h+1) maxDepth (some className) displayAsKey .nil w).bind
      (fun r => .ok ((r.1,className),r.2))
  | [v] => (shown (h+1) maxDepth (some className) displayAsKey v w).bind
      (fun r => .ok ((r.1,className),r.2))
  | first::v::vs =>
    match p.lua.tostring first with
    | none => .error (.fault .string)
    | some name =>
      (shown (h+results.length) maxDepth (some (cstr name)) displayAsKey ((v::vs).getLastD .nil) w).bind
        (fun r => .ok ((r.1,cstr name),r.2))

def failed (className : Bytes) (e : Value) : Option TiXmlElement × Bytes :=
  (some (errorAsText (p.lua.tostring e)),className)

def stringShown (h : ℕ) (className : Bytes) (v : Value) (w : σ) : Outcome σ (Option TiXmlElement × Bytes) :=
  (metaMethod p h v (text "__tostring") (some 1) w).bind (fun r =>
    match r.1 with
    | some (.returns results) =>
      .ok (((p.lua.tostring (results.headD .nil)).map (fun s => writeValue (cstr s) className),className),r.2)
    | some (.raises e) => .ok (failed p className e,r.2)
    | none => .ok ((none,className),r.2))

def metaShown (shown : Shown σ) (h : ℕ) (maxDepth : ℤ) (className : Bytes) (displayAsKey : Bool) (v : Value)
    (w : σ) : Outcome σ (Option TiXmlElement × Bytes) :=
  (metaMethod p h v (text "__towatch") none w).bind (fun r =>
    match r.1 with
    | some (.returns results) => watched p shown h maxDepth className displayAsKey results r.2
    | some (.raises e) => .ok (failed p className e,r.2)
    | none => stringShown p h className v r.2)

def userdataShown (shown : Shown σ) (h : ℕ) (maxDepth : ℤ) (displayAsKey : Bool) (v : Value) (w : σ) :
    Outcome σ TiXmlElement :=
  (metaShown p shown h maxDepth (classNameOf (classNameForUserdata p h v w)) displayAsKey v w).bind
    (fun r => .ok (r.1.1.getD (addressText p r.1.2 displayAsKey v),r.2))

def linked (r : Outcome σ (Option TiXmlElement)) : Outcome σ TiXmlElement :=
  r.bind (fun x =>
    match x.1 with
    | some node => .ok (node,x.2)
    | none => .error (.fault .node))

def elementShown (shown : Shown σ) (h : ℕ) (maxDepth : ℤ) (k v : Value) (w : σ) : Outcome σ TiXmlElement :=
  (linked (shown h (maxDepth-1) none true k w)).bind (fun key =>
    (linked (shown h (maxDepth-1) none false v key.2)).bind (fun value =>
      .ok (.node (text "element") [] [.node (text "key") [] [key.1],.node (text "data") [] [value.1]],value.2)))

def filled (t : Value) (w : σ) : Bool := (p.lua.keys w t).any (fun key => p.lua.rawget w t key ≠ .nil)

def attributesShown (t : Value) (maxDepth : ℤ) (w : σ) : List (Bytes × Bytes) × σ :=
  if filled p t w then
    if maxDepth ≤ 0 then
      ([(text "reference",sprintfD (cached p.lua p.addresses w t).1)],(cached p.lua p.addresses w t).2)
    else ([],w)
  else ([(text "empty",sprintfD 1)],w)

def elementsShown (rounds : ℕ) (shown : Shown σ) (h : ℕ) (maxDepth : ℤ) (t : Value) (w : σ) :
    Outcome σ (List TiXmlElement) :=
  if 0 < maxDepth then fields p.lua t (elementShown shown (h+2) maxDepth) rounds .nil w else .ok ([],w)

def tableShown (rounds : ℕ) (shown : Shown σ) (h : ℕ) (maxDepth : ℤ) (typeName : Bytes) (t : Value) (w : σ) :
    Outcome σ (Option TiXmlElement) :=
  if p.lua.checkstack w h 2 then
    (elementsShown p rounds shown h maxDepth t w).bind (fun elements =>
      let r := attributesShown p t maxDepth elements.2
      .ok (some (tableNode typeName r.1 elements.1),r.2))
  else .ok (none,w)

def duplicateShown (rounds : ℕ) (shown : Shown σ) (h : ℕ) (maxDepth : ℤ) (typeName : Bytes)
    (displayAsKey : Bool) (v : Value) (w : σ) : Outcome σ (Option TiXmlElement) :=
  match v with
  | .table _ => tableShown p rounds shown h (maxDepth-1) typeName v w
  | .userdata _ => (userdataShown p shown h maxDepth displayAsKey v w).bind (fun r => .ok (some r.1,r.2))
  | .lightuserdata _ => (userdataShown p shown h maxDepth displayAsKey v w).bind (fun r => .ok (some r.1,r.2))
  | _ => .ok (some (plainText p typeName displayAsKey w v),w)

def bodyShown (rounds : ℕ) (shown : Shown σ) (h : ℕ) (maxDepth : ℤ) (typeNameOverride : Option Bytes)
    (displayAsKey : Bool) (v : Value) (w : σ) : Outcome σ (Option TiXmlElement) :=
  if p.lua.checkstack w h 1 then
    duplicateShown p rounds shown (h+1) maxDepth (typeNameOverride.getD (typeName v)) displayAsKey v w
  else .ok (none,w)

def valueShown : ℕ → Shown σ
  | 0 => fun _ _ _ _ _ _ => .error .endless
  | fuel+1 => bodyShown p fuel (valueShown fuel)

end Stackless

section Refinement

variable {p}

theorem classNameFor_apply (s : List Value) (mt : Value) (w : σ) (infos : List (Bytes × ℤ)) :
    classNameFor p infos ⟨s ++ [mt],w⟩ = .ok ((infos.find? (fun c =>
      p.lua.rawget w p.lua.registry (.integer c.2) = mt)).map Prod.fst,⟨s,w⟩) := by
  induction infos with
  | nil => simp [classNameFor]
  | cons c infos ih =>
    by_cases h : p.lua.rawget w p.lua.registry (.integer c.2) = mt
    · simp [classNameFor, h]
    · simp [classNameFor, h, ih]

theorem getClassNameForUserdata_apply (s : List Value) (i : ℤ) (w : σ) :
    getClassNameForUserdata p i ⟨s,w⟩ = .ok (classNameForUserdata p s.length (value s i) w,⟨s,w⟩) := by
  by_cases hc : p.lua.checkstack w s.length 2 = true
  · cases hm : p.lua.getmetatable w (value s i) with
    | none => simp [getClassNameForUserdata, classNameForUserdata, hc, hm, getmetatable_none]
    | some mt =>
      simp [getClassNameForUserdata, classNameForUserdata, hc, hm, getmetatable_some, classNameFor_apply]
  · simp [getClassNameForUserdata, classNameForUserdata, hc]

/-- What a call of a metamethod leaves on the stack. -/
theorem callMetaMethod_apply {s : List Value} {i : ℤ} (hi : 0 < i) (his : i ≤ s.length) (method : Bytes)
    (numResults : Option ℕ) (w : σ) : callMetaMethod p i method numResults ⟨s,w⟩ =
      (metaMethod p s.length (value s i) method numResults w).bind
        (fun r => .ok (r.1.map status,⟨s ++ (r.1.map left).getD [],r.2⟩)) := by
  by_cases hc : p.lua.checkstack w s.length 3 = true
  · cases hm : p.lua.getmetatable w (value s i) with
    | none => simp [callMetaMethod, metaMethod, hc, hm, getmetatable_none]
    | some mt =>
      have hmt (t : List Value) : value (s ++ .table mt::t) (s.length+1) = .table mt :=
        LuaStack.value_above ..
      have hremove (t : List Value) : LuaStack.remove (s ++ .table mt::t) (s.length+1) = s ++ t :=
        LuaStack.remove_above ..
      cases hg : p.lua.gettable w (.table mt) (.string method) with
      | error e => simp [callMetaMethod, metaMethod, hc, hm, getmetatable_some, gettable, hmt, hg]
      | ok r =>
        obtain ⟨f,w'⟩ := r
        by_cases hf : f = .nil
        · simp [callMetaMethod, metaMethod, hc, hm, getmetatable_some, gettable, hmt, hg, hf, hremove]
        · cases hcall : p.lua.call w' f [value s i] with
          | mk r w'' =>
            cases r with
            | returns vs =>
              simp [callMetaMethod, metaMethod, hc, hm, getmetatable_some, gettable, hmt, hg, hf, hremove,
                pcall, value_append_left _ _ hi his, hcall, status, left]
            | raises e =>
              simp [callMetaMethod, metaMethod, hc, hm, getmetatable_some, gettable, hmt, hg, hf, hremove,
                pcall, value_append_left _ _ hi his, hcall, status, left]
  · simp [callMetaMethod, metaMethod, hc]

variable {asText : Text σ} {shown : Shown σ}

def Neutral (asText : Text σ) (shown : Shown σ) : Prop := ∀ s n maxDepth typeNameOverride displayAsKey w,
  asText n maxDepth typeNameOverride displayAsKey ⟨s,w⟩ =
    leaving s (shown s.length maxDepth typeNameOverride displayAsKey (value s n) w)

theorem watchedText_apply (ht : Neutral asText shown) (s results : List Value) (maxDepth : ℤ)
    (className : Bytes) (displayAsKey : Bool) (w : σ) :
    watchedText p asText s.length maxDepth className displayAsKey ⟨s ++ results,w⟩ =
      leaving s (watched p shown s.length maxDepth className displayAsKey results w) := by
  cases results with
  | nil =>
    have htop : value (s ++ [.nil]) (s.length+1) = .nil := LuaStack.value_above ..
    simp [watchedText, watched, ht _, htop, leaving_bind, bind_leaving]
  | cons first vs =>
    cases vs with
    | nil =>
      have htop : value (s ++ [first]) (s.length+1) = first := LuaStack.value_above ..
      simp [watchedText, watched, ht _, htop, leaving_bind, bind_leaving]
    | cons v vs =>
      have hfirst : value (s ++ first::v::vs) (-((vs.length+2 : ℕ) : ℤ)) = first := value_first ..
      have hlast : value (s ++ first::v::vs) (s ++ first::v::vs).length = (v::vs).getLastD .nil := by
        rw [value_last _ (by simp)]
        simp [List.getLast?_cons]
      have hgap : (((s ++ first::v::vs).length : ℕ) : ℤ)-s.length = ((vs.length+2 : ℕ) : ℤ) := by
        rw [List.length_append, List.length_cons, List.length_cons]
        omega
      have hpop : LuaStack.pop (s ++ first::v::vs) (vs.length+2) = s := by simp
      rw [watchedText]
      simp only [bind_apply, gettop_apply, ok_bind, hgap]
      rw [if_neg (by omega), if_pos (by omega), bind_apply, look_apply, ok_bind, hfirst]
      cases hname : p.lua.tostring first with
      | none => simp [watched, hname]
      | some name =>
        simp only [bind_apply, ht _, hlast, leaving_bind, pop_apply, ok_bind, Int.toNat_natCast, hpop,
          pure_apply, watched, hname, bind_leaving, leaving_ok]
        rw [List.length_append]

theorem failedText_apply (s : List Value) (e : Value) (w : σ) :
    failedText p ⟨s ++ [e],w⟩ = .ok (some (errorAsText (p.lua.tostring e)),⟨s,w⟩) := by
  simp [failedText]

theorem stringText_apply (s : List Value) (v : Value) (className : Bytes) (w : σ) :
    stringText p className ⟨s ++ [v],w⟩ =
      .ok ((p.lua.tostring v).map (fun string => writeValue (cstr string) className),⟨s,w⟩) := by
  simp [stringText]

/-- A metamethod that cannot be looked up raises, there may be none, and a call returns as many
results as are asked for or fails. -/
theorem metaMethod_cases (h : ℕ) (v : Value) (method : Bytes) (numResults : Option ℕ) (w : σ) :
    (∃ e, metaMethod p h v method numResults w = .error (.raised e)) ∨
      (∃ u, metaMethod p h v method numResults w = .ok (none,u)) ∨
      (∃ vs u, metaMethod p h v method numResults w = .ok (some (.returns (adjust .nil numResults vs)),u)) ∨
      ∃ e u, metaMethod p h v method numResults w = .ok (some (.raises e),u) := by
  unfold metaMethod
  by_cases hc : p.lua.checkstack w h 3 = true
  · rw [if_pos hc]
    cases p.lua.getmetatable w v with
    | none => exact .inr (.inl ⟨w,rfl⟩)
    | some mt =>
      dsimp only
      cases p.lua.gettable w (.table mt) (.string method) with
      | error e => exact .inl ⟨e,rfl⟩
      | ok r =>
        dsimp only
        by_cases hf : r.1 = .nil
        · rw [if_pos hf]
          exact .inr (.inl ⟨r.2,rfl⟩)
        · rw [if_neg hf]
          obtain ⟨result,u⟩ := p.lua.call r.2 r.1 [v]
          cases result with
          | returns vs => exact .inr (.inr (.inl ⟨vs,u,rfl⟩))
          | raises e => exact .inr (.inr (.inr ⟨e,u,rfl⟩))
  · rw [if_neg hc]
    exact .inr (.inl ⟨w,rfl⟩)

/-- As many results as are asked for. -/
theorem metaMethod_length {h n : ℕ} {v : Value} {method : Bytes} {w w' : σ} {results : List Value}
    (hm : metaMethod p h v method (some n) w = .ok (some (.returns results),w')) : results.length = n := by
  obtain ⟨e,he⟩ | ⟨u,hu⟩ | ⟨vs,u,hvs⟩ | ⟨e,u,he⟩ := metaMethod_cases (p := p) h v method (some n) w
  · cases hm.symm.trans he
  · cases hm.symm.trans hu
  · cases hm.symm.trans hvs
    exact List.takeD_length ..
  · cases hm.symm.trans he

theorem metaText_apply (ht : Neutral asText shown) {s : List Value} (hs : 0 < s.length) (maxDepth : ℤ)
    (className : Bytes) (displayAsKey : Bool) (w : σ) :
    metaText p asText s.length maxDepth className displayAsKey ⟨s,w⟩ =
      leaving s (metaShown p shown s.length maxDepth className displayAsKey (value s s.length) w) := by
  have hi : (0 : ℤ) < s.length := by omega
  rw [metaText, metaShown, bind_apply, callMetaMethod_apply hi le_rfl, bind_leaving]
  cases hw : metaMethod p s.length (value s s.length) (text "__towatch") none w with
  | error e => rfl
  | ok r =>
    obtain ⟨called,w'⟩ := r
    match called with
    | some (.returns results) => exact watchedText_apply ht s results maxDepth className displayAsKey w'
    | some (.raises e) => simp [status, left, failedText_apply, failed]
    | none =>
      simp only [ok_bind, Option.map_none, Option.getD_none, List.append_nil, bind_apply,
        callMetaMethod_apply hi le_rfl, stringShown, bind_leaving]
      cases hm : metaMethod p s.length (value s s.length) (text "__tostring") (some 1) w' with
      | error e => rfl
      | ok r =>
        obtain ⟨called,w''⟩ := r
        match called with
        | some (.returns results) =>
          obtain ⟨x,rfl⟩ := List.length_eq_one_iff.mp (metaMethod_length hm)
          simp [status, left, stringText_apply]
        | some (.raises e) => simp [status, left, failedText_apply, failed]
        | none => simp

theorem userdataText_apply (ht : Neutral asText shown) (s : List Value) (v : Value) (maxDepth : ℤ)
    (displayAsKey : Bool) (w : σ) : userdataText p asText maxDepth displayAsKey ⟨s ++ [v],w⟩ =
      leaving (s ++ [v]) (userdataShown p shown (s.length+1) maxDepth displayAsKey v w) := by
  have hlength : (s ++ [v]).length = s.length+1 := by simp
  have htop : value (s ++ [v]) (s ++ [v]).length = v := by rw [value_last _ (by simp), List.getLastD_concat]
  rw [userdataText, bind_apply, getClassNameForUserdata_apply, ok_bind, bind_apply, gettop_apply, ok_bind,
    bind_apply, metaText_apply ht (by omega), leaving_bind, userdataShown, bind_leaving, htop,
    value_top _ _ (by simp), hlength]
  simp only [bind_apply, look_apply, ok_bind, ← hlength, htop, pure_apply, leaving_ok]
  rfl

/-- A table has a field exactly when the traversal finds one. -/
theorem filled_cases (t : Value) (w : σ) :
    p.lua.next w t .nil = some none ∧ filled p t w = false ∨
      (∃ k, p.lua.next w t .nil = some (some k)) ∧ filled p t w = true := by
  have hfilled : filled p t w = ((p.lua.keys w t).find? (fun key => p.lua.rawget w t key ≠ .nil)).isSome := by
    rw [Bool.eq_iff_iff, filled, List.any_eq_true, List.find?_isSome]
  rw [hfilled, Lua.next, after, if_pos rfl, Option.map_some]
  cases (p.lua.keys w t).find? (fun key => p.lua.rawget w t key ≠ .nil) with
  | none => exact .inl ⟨rfl,rfl⟩
  | some k => exact .inr ⟨⟨k,rfl⟩,rfl⟩

theorem tableAttributes_apply {s : List Value} {t : ℤ} (ht : 0 < t) (hts : t ≤ s.length) (maxDepth : ℤ)
    (w : σ) : tableAttributes p t maxDepth ⟨s,w⟩ =
      .ok ((attributesShown p (value s t) maxDepth w).1,⟨s,(attributesShown p (value s t) maxDepth w).2⟩) := by
  have htable : value (s ++ [.nil]) t = value s t := value_append_left _ _ ht hts
  have htop : value (s ++ [.nil]) (-1) = .nil := by simp
  rw [tableAttributes, bind_apply, push_apply, ok_bind, bind_apply, attributesShown]
  obtain ⟨hnext,hfilled⟩ | ⟨⟨k,hnext⟩,hfilled⟩ := filled_cases (p := p) (value s t) w
  · rw [next_done (by rw [htable, htop, hnext]), hfilled]
    simp
  · rw [next_field (by rw [htable, htop, hnext]), hfilled]
    by_cases hd : maxDepth ≤ 0
    · simp [hd, cacheTable_apply _ _ (.inl ⟨ht,hts⟩)]
    · simp [hd]

theorem linkedText_apply (ht : Neutral asText shown) (s : List Value) (n maxDepth : ℤ)
    (typeNameOverride : Option Bytes) (displayAsKey : Bool) (w : σ) :
    linkedText asText n maxDepth typeNameOverride displayAsKey ⟨s,w⟩ =
      leaving s (linked (shown s.length maxDepth typeNameOverride displayAsKey (value s n) w)) := by
  rw [linkedText, bind_apply, ht, leaving_bind, linked, bind_leaving]
  congr 1
  funext r
  cases hr : r.1 <;> rfl

theorem elementText_apply (ht : Neutral asText shown) (s : List Value) (maxDepth : ℤ) (k v : Value) (w : σ) :
    elementText asText maxDepth ⟨s ++ [k,v],w⟩ =
      leaving (s ++ [k,v]) (elementShown shown (s.length+2) maxDepth k v w) := by
  have hlength : (s ++ [k,v]).length = s.length+2 := by simp
  have hk : value (s ++ [k,v]) (-2) = k := by simp
  have hv : value (s ++ [k,v]) (-1) = v := by simp
  rw [elementText, elementShown, bind_apply, linkedText_apply ht, hlength, hk, leaving_bind, bind_leaving]
  congr 1
  funext key
  rw [bind_apply, linkedText_apply ht, hlength, hv, leaving_bind, bind_leaving]
  rfl

theorem tableElements_apply (ht : Neutral asText shown) (rounds : ℕ) {s : List Value} {t : ℤ} (hpos : 0 < t)
    (hle : t ≤ s.length) (maxDepth : ℤ) (w : σ) : tableElements p rounds asText t maxDepth ⟨s,w⟩ =
      leaving s (elementsShown p rounds shown s.length maxDepth (value s t) w) := by
  unfold tableElements elementsShown
  by_cases hd : 0 < maxDepth
  · rw [if_pos hd, if_pos hd,
      forNext_apply p.lua hpos hle (fun k v w => elementText_apply ht s maxDepth k v w) rounds w]
  · rw [if_neg hd, if_neg hd]
    rfl

/-- GetTableAsText leaves the stack as it was. -/
theorem getTableAsText_apply (ht : Neutral asText shown) (rounds : ℕ) {s : List Value} {t : ℤ}
    (hi : Valid s t) (maxDepth : ℤ) (typeName : Bytes) (w : σ) :
    getTableAsText p rounds asText t maxDepth typeName ⟨s,w⟩ =
      leaving s (tableShown p rounds shown s.length maxDepth typeName (value s t) w) := by
  obtain ⟨j,hj,hpos,hle,hv⟩ := absindex_valid (ε := Null) hi (w := w)
  rw [← hv, getTableAsText, tableShown, bind_apply, checkstack_apply, ok_bind]
  by_cases hc : p.lua.checkstack w s.length 2 = true
  · rw [if_pos hc, hc, if_pos rfl, bind_apply, hj, ok_bind, bind_apply, tableElements_apply ht rounds hpos hle,
      leaving_bind, bind_leaving]
    congr 1
    funext elements
    rw [bind_apply, tableAttributes_apply hpos hle]
    rfl
  · rw [if_neg hc, if_neg hc]
    rfl

theorem duplicateText_apply (ht : Neutral asText shown) (rounds : ℕ) (s : List Value) (maxDepth : ℤ)
    (typeName : Bytes) (displayAsKey : Bool) (v : Value) (w : σ) :
    duplicateText p rounds asText maxDepth typeName displayAsKey v ⟨s ++ [v],w⟩ =
      leaving (s ++ [v]) (duplicateShown p rounds shown (s.length+1) maxDepth typeName displayAsKey v w) := by
  have hlength : (s ++ [v]).length = s.length+1 := by simp
  have htable := getTableAsText_apply (p := p) ht rounds (s := s ++ [v]) (t := -1) (.inr ⟨by omega,by decide⟩)
    (maxDepth-1) typeName w
  rw [hlength, value_top _ _ (by simp)] at htable
  have huserdata := userdataText_apply (p := p) ht s v maxDepth displayAsKey w
  cases v with
  | table id => exact htable
  | userdata id =>
    rw [duplicateText, bind_apply, huserdata, leaving_bind, duplicateShown, bind_leaving]
    rfl
  | lightuserdata address =>
    rw [duplicateText, bind_apply, huserdata, leaving_bind, duplicateShown, bind_leaving]
    rfl
  | _ => rfl

/-- GetValueAsText leaves the stack as it was. -/
theorem getValueAsText_apply (fuel : ℕ) : Neutral (getValueAsText p fuel) (valueShown p fuel) := by
  induction fuel with
  | zero => exact fun _ _ _ _ _ _ => rfl
  | succ fuel ih =>
    intro s n maxDepth typeNameOverride displayAsKey w
    have htop : value (s ++ [value s n]) (-1) = value s n := by simp
    have hpop : LuaStack.pop (s ++ [value s n]) 1 = s := by simp
    rw [getValueAsText, valueShown, valueText, bodyShown, bind_apply, checkstack_apply, ok_bind]
    by_cases hc : p.lua.checkstack w s.length 1 = true
    · rw [if_pos hc, hc, if_pos rfl]
      simp only [bind_apply, pushvalue_apply, ok_bind, look_apply, htop, duplicateText_apply ih,
        leaving_bind, pop_apply, hpop, pure_apply]
      rfl
    · rw [if_neg hc, if_neg hc]
      rfl

end Refinement

end Vecoda.ValueText

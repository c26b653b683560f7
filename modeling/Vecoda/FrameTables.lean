import Vecoda.LuaApi
import Vecoda.MessagePipe
import Vecoda.LuaText
import Vecoda.Watch

/-!
# The tables of a frame

CreateEnvironment copies the locals and the upvalues of a frame into tables and
chains them with its globals; SetLocals and SetUpValues write them back. Here
they run on the stack of the Lua API, and what they leave there is stated
beside them. Before Lua 5.2 a function has its environment, after that the
upvalue `_ENV` holds it.
-/

set_option autoImplicit false

namespace Vecoda.FrameTables
open LuaApi
open LuaText (text)
open Watch (isLocal isUpvalue)

abbrev Bytes := List UInt8

section Program

variable {ε σ : Type} (lua : Lua σ)

/-- Name and value for a table, the sentinel standing for nil. The value is on the top. -/
def arrange (nilSentinel : ℤ) (name : Bytes) : Program ε σ Unit := do
  let v ← look (-1)
  if v = .nil then do
    pop 1
    push (.string name)
    pushvalue nilSentinel
  else do
    push (.string name)
    insert (-2)

def copyVariable (shown : Bytes → Bool) (nilSentinel table : ℤ) (name : Bytes) : Program ε σ Unit :=
  if shown name then do
    arrange nilSentinel name
    rawset lua table
  else pop 1

def copyLocal (nilSentinel level : ℤ) : Program ε σ Unit := do
  newtable lua
  let localTable ← gettop
  let count ← localCount lua level
  let _ ← forVariables (getlocal lua level) (fun _ => copyVariable lua isLocal nilSentinel localTable) count 0
  return ()

def copyUpvalue (nilSentinel level : ℤ) : Program ε σ Unit := do
  newtable lua
  let upValueTable ← gettop
  getfunction lua level
  let functionIndex ← gettop
  let count ← upvalueCount lua functionIndex
  let _ ← forVariables (getupvalue lua functionIndex)
    (fun _ => copyVariable lua isUpvalue nilSentinel upValueTable) count 0
  remove functionIndex

def findEnv (f : ℤ) : ℕ → ℕ → Program ε σ (Option ℕ)
  | 0, _ => return none
  | count+1, n => do
    let upname ← getupvalue lua f n
    match upname with
    | none => return none
    | some upname =>
      if upname = text "_ENV" then return some n
      else do
        pop 1
        findEnv f count (n+1)

def globalsIndex : ℤ := 2

def registryGlobals : Program ε σ Unit := do
  rawgeti lua .registry globalsIndex
  let v ← look (-1)
  if v = .nil then do
    pop 1
    newtable lua
  else return ()

def luaGetfenvDll (i : ℤ) : Program ε σ Unit :=
  match lua.getfenv with
  | some getfenv => do
    let f ← look i
    let w ← world
    push (getfenv w f)
  | none => do
    let i ← absindex i
    let count ← upvalueCount lua i
    let upidx ← findEnv lua i count 0
    match upidx with
    | some _ => return ()
    | none => registryGlobals lua

def setfenvTop (setfenv : σ → Value → Value → σ) (i : ℤ) : Program ε σ Unit := fun s =>
  .ok ((),⟨LuaStack.pop s.stack 1,setfenv s.world (value s.stack i) (value s.stack (-1))⟩)

def luaSetfenvDll (i : ℤ) : Program ε σ Unit :=
  match lua.setfenv with
  | some setfenv => setfenvTop setfenv i
  | none => do
    let i ← absindex i
    let count ← upvalueCount lua i
    let upidx ← findEnv lua i count 0
    match upidx with
    | some upidx => do
      pop 1
      setupvalue lua i upidx
    | none => pop 1

def copyGlobal (level : ℤ) : Program ε σ Unit := do
  getfunction lua level
  let functionIndex ← gettop
  luaGetfenvDll lua functionIndex
  remove functionIndex

def indexChained : ℕ := 0

def newIndexChained : ℕ := 1

def chainMethod (method : String) (f : ℕ) (nilSentinel localTable upValueTable globalTable metaTable : ℤ) :
    Program ε σ Unit := do
  push (.string (text method))
  pushvalue nilSentinel
  pushvalue localTable
  pushvalue upValueTable
  pushvalue globalTable
  pushcclosure lua f 4
  rawset lua metaTable

def createChainedTable (nilSentinel localTable upValueTable globalTable : ℤ) : Program ε σ Unit := do
  newtable lua
  let metaTable ← gettop
  chainMethod lua "__index" indexChained nilSentinel localTable upValueTable globalTable metaTable
  chainMethod lua "__newindex" newIndexChained nilSentinel localTable upValueTable globalTable metaTable
  pushvalue metaTable
  setmetatable lua (-1)

def createEnvironment (level nilSentinel : ℤ) : Program ε σ Bool := do
  let w ← world
  if lua.getstack w level then do
    copyLocal lua nilSentinel level
    let localTable ← gettop
    copyUpvalue lua nilSentinel level
    let upValueTable ← gettop
    copyGlobal lua level
    let globalTable ← gettop
    createChainedTable lua nilSentinel localTable upValueTable globalTable
    remove globalTable
    return true
  else return false

/-- The value a table has for a name, nil for the sentinel. -/
def fetch (table nilSentinel : ℤ) (name : Bytes) : Program ε σ Unit := do
  push (.string name)
  rawget lua table
  let v ← look (-1)
  let sentinel ← look nilSentinel
  if v = sentinel then do
    pop 1
    push .nil
  else return ()

def setLocals (level localTable nilSentinel : ℤ) : Program ε σ Unit := do
  let count ← localCount lua level
  let _ ← forVariables (getlocal lua level) (fun n name => do
    pop 1
    if isLocal name then do
      fetch lua localTable nilSentinel name
      setlocal lua level n
    else return ()) count 0
  return ()

def setUpValues (level upValueTable nilSentinel : ℤ) : Program ε σ Unit := do
  getfunction lua level
  let functionIndex ← gettop
  let count ← upvalueCount lua functionIndex
  let _ ← forVariables (getupvalue lua functionIndex) (fun n name => do
    pop 1
    if isUpvalue name then do
      fetch lua upValueTable nilSentinel name
      setupvalue lua functionIndex n
    else return ()) count 0
  pop 1

end Program

section Effects

variable {ε σ : Type} (lua : Lua σ)

def sentineled (sentinel v : Value) : Value := if v = .nil then sentinel else v

def copied (shown : Bytes → Bool) (sentinel table : Value) (name : Bytes) (v : Value) (w : σ) : σ :=
  if shown name then lua.rawset w table (.string name) (sentineled sentinel v) else w

def copiedLocals (level : ℤ) (sentinel : Value) (w : σ) : Value × σ :=
  let table := lua.newtable w
  (table.1,variablesWorld (fun n w => (lua.locals w level)[n]?)
    (fun _ name v w => copied lua isLocal sentinel table.1 name v w) (lua.locals table.2 level).length 0 table.2)

def copiedUpvalues (level : ℤ) (sentinel : Value) (w : σ) : Value × σ :=
  let table := lua.newtable w
  let f := lua.frameFunction table.2 level
  (table.1,variablesWorld (fun n w => (lua.upvalues w f)[n]?)
    (fun _ name v w => copied lua isUpvalue sentinel table.1 name v w) (lua.upvalues table.2 f).length 0 table.2)

def envOf : List (Bytes × Value) → ℕ → Option (ℕ × Value)
  | [], _ => none
  | (name,v)::upvalues, n => if name = text "_ENV" then some (n,v) else envOf upvalues (n+1)

def globalsOf (w : σ) : Value × σ :=
  let v := lua.rawget w lua.registry (.integer globalsIndex)
  if v = .nil then lua.newtable w else (v,w)

def environmentOf (f : Value) (w : σ) : Value × σ :=
  match lua.getfenv with
  | some getfenv => (getfenv w f,w)
  | none =>
    match envOf (lua.upvalues w f) 0 with
    | some env => (env.2,w)
    | none => globalsOf lua w

def enclosed (f env : Value) (w : σ) : σ :=
  match lua.setfenv with
  | some setfenv => setfenv w f env
  | none =>
    match envOf (lua.upvalues w f) 0 with
    | some found => lua.setupvalue w f found.1 env
    | none => w

def chainedMethod (method : String) (f : ℕ) (upvalues : List Value) (metaTable : Value) (w : σ) : σ :=
  let closure := lua.pushcclosure w f upvalues
  lua.rawset closure.2 metaTable (.string (text method)) closure.1

/-- The table that is its own metatable. -/
def chained (upvalues : List Value) (w : σ) : Value × σ :=
  let metaTable := lua.newtable w
  let w := chainedMethod lua "__index" indexChained upvalues metaTable.1 metaTable.2
  let w := chainedMethod lua "__newindex" newIndexChained upvalues metaTable.1 w
  (metaTable.1,lua.setmetatable w metaTable.1 metaTable.1)

/-- What CreateEnvironment makes: the locals, the upvalues, the environment. -/
structure Environment (σ : Type) where
  localTable : Value
  upValueTable : Value
  envTable : Value
  world : σ

def environment (level : ℤ) (sentinel : Value) (w : σ) : Environment σ :=
  let l := copiedLocals lua level sentinel w
  let u := copiedUpvalues lua level sentinel l.2
  let g := environmentOf lua (lua.frameFunction u.2 level) u.2
  let e := chained lua [sentinel,l.1,u.1,g.1] g.2
  ⟨l.1,u.1,e.1,e.2⟩

theorem arrange_apply {s : List Value} {i : ℤ} (hi : Fixed s i) (name : Bytes) (v : Value)
    (w : σ) : (arrange i name : Program ε σ Unit) ⟨s ++ [v],w⟩ =
      .ok ((),⟨s ++ [.string name,sentineled (value s i) v],w⟩) := by
  by_cases hv : v = .nil
  · simp [arrange, sentineled, hv, fixed_append hi]
  · have hinsert : LuaStack.insert .nil (s ++ [v,.string name]) (-2) = s ++ [.string name,v] :=
      LuaStack.insert_below_top ..
    simp [arrange, sentineled, hv, hinsert]

theorem copyVariable_apply (shown : Bytes → Bool) {s : List Value} {i t : ℤ} (hi : Fixed s i) (ht : Fixed s t)
    (name : Bytes) (v : Value) (w : σ) :
    (copyVariable lua shown i t name : Program ε σ Unit) ⟨s ++ [v],w⟩ =
      leaving s (.ok ((),copied lua shown (value s i) (value s t) name v w)) := by
  by_cases hn : shown name = true
  · simp [copyVariable, copied, hn, arrange_apply hi, fixed_append ht]
  · simp [copyVariable, copied, hn]

/-- A loop over variables that cannot fail. -/
theorem forVariables_total {read : ℕ → Program ε σ (Option Bytes)} {s : List Value}
    {lookup : ℕ → σ → Option (Bytes × Value)} (hread : Reads read s lookup)
    {body : ℕ → Bytes → Program ε σ Unit} {g : ℕ → Bytes → Value → σ → σ}
    (hbody : ∀ n name v w, body n name ⟨s ++ [v],w⟩ = leaving s (.ok ((),g n name v w))) (count : ℕ) (w : σ) :
    ∃ us, forVariables read body count 0 ⟨s,w⟩ = .ok (us,⟨s,variablesWorld lookup g count 0 w⟩) := by
  obtain ⟨us,hus⟩ := eachVariable_total (ε := ε) lookup g count 0 w
  exact ⟨us,by rw [forVariables_apply hread hbody, hus]; rfl⟩

theorem copyLocal_apply {s : List Value} {i : ℤ} (hi : Fixed s i) (level : ℤ) (w : σ) :
    (copyLocal lua i level : Program ε σ Unit) ⟨s,w⟩ =
      .ok ((),⟨s ++ [(copiedLocals lua level (value s i) w).1],(copiedLocals lua level (value s i) w).2⟩) := by
  have htable : value (s ++ [(lua.newtable w).1]) (s.length+1) = (lua.newtable w).1 := LuaStack.value_above ..
  have hsentinel : value (s ++ [(lua.newtable w).1]) i = value s i := fixed_append hi _
  obtain ⟨us,hloop⟩ := forVariables_total (ε := ε)
    (reads_local lua level (s ++ [(lua.newtable w).1]))
    (fun _ name v w => copyVariable_apply lua isLocal (fixed_more hi _) (t := s.length+1)
      ⟨by omega,by simp⟩ name v w) (lua.locals (lua.newtable w).2 level).length (lua.newtable w).2
  rw [htable, hsentinel] at hloop
  simp [copyLocal, localCount, hloop, copiedLocals]

theorem copyUpvalue_apply {s : List Value} {i : ℤ} (hi : Fixed s i) (level : ℤ) (w : σ) :
    (copyUpvalue lua i level : Program ε σ Unit) ⟨s,w⟩ =
      .ok ((),⟨s ++ [(copiedUpvalues lua level (value s i) w).1],
        (copiedUpvalues lua level (value s i) w).2⟩) := by
  obtain ⟨f,hframe⟩ : ∃ f, f = lua.frameFunction (lua.newtable w).2 level := ⟨_,rfl⟩
  have htable : value (s ++ [(lua.newtable w).1,f]) (s.length+1) = (lua.newtable w).1 :=
    LuaStack.value_above ..
  have hf : value (s ++ [(lua.newtable w).1,f]) (s.length+1+1) = f := by
    have := value_last (s ++ [(lua.newtable w).1,f]) (by simp)
    simpa [add_assoc] using this
  have hsentinel : value (s ++ [(lua.newtable w).1,f]) i = value s i := fixed_append hi _
  obtain ⟨us,hloop⟩ := forVariables_total (ε := ε)
    (reads_upvalue lua (s.length+1+1) (s ++ [(lua.newtable w).1,f]))
    (fun _ name v w => copyVariable_apply lua isUpvalue (fixed_more hi _) (t := s.length+1)
      ⟨by omega,by simp⟩ name v w) (lua.upvalues (lua.newtable w).2 f).length (lua.newtable w).2
  rw [htable, hsentinel, hf] at hloop
  have hremove : LuaStack.remove (s ++ [(lua.newtable w).1,f]) (s.length+1+1) = s ++ [(lua.newtable w).1] := by
    have := LuaStack.remove_above f (s ++ [(lua.newtable w).1]) []
    simpa [add_assoc] using this
  simp [copyUpvalue, upvalueCount, getfunction, ← hframe, hf, hloop, copiedUpvalues, hremove]

theorem findEnv_apply {s : List Value} {i : ℤ} {w : σ} (us done : List (Bytes × Value))
    (h : lua.upvalues w (value s i) = done ++ us) :
    (findEnv lua i us.length done.length : Program ε σ (Option ℕ)) ⟨s,w⟩ =
      .ok ((envOf us done.length).map Prod.fst,⟨s ++ ((envOf us done.length).map Prod.snd).toList,w⟩) := by
  induction us generalizing done with
  | nil => simp [findEnv, envOf]
  | cons e us ih =>
    obtain ⟨name,v⟩ := e
    have hread : (getupvalue lua i done.length : Program ε σ (Option Bytes)) ⟨s,w⟩ =
        .ok (some name,⟨s ++ [v],w⟩) := by
      simp [getupvalue, h, pushNamed]
    have hrest := ih (done ++ [(name,v)]) (by rw [h, List.append_assoc]; rfl)
    rw [List.length_append, List.length_singleton] at hrest
    rw [List.length_cons, findEnv, bind_apply, hread, ok_bind, envOf]
    by_cases hn : name = text "_ENV"
    · simp [hn]
    · simp [hn, hrest]

theorem registryGlobals_apply (s : List Value) (w : σ) : (registryGlobals lua : Program ε σ Unit) ⟨s,w⟩ =
    .ok ((),⟨s ++ [(globalsOf lua w).1],(globalsOf lua w).2⟩) := by
  by_cases h : lua.rawget w lua.registry (.integer globalsIndex) = .nil
  · simp [registryGlobals, globalsOf, h]
  · simp [registryGlobals, globalsOf, h]

theorem luaGetfenvDll_apply {s : List Value} {i : ℤ} (hi : Valid s i) (w : σ) :
    (luaGetfenvDll lua i : Program ε σ Unit) ⟨s,w⟩ =
      .ok ((),⟨s ++ [(environmentOf lua (value s i) w).1],(environmentOf lua (value s i) w).2⟩) := by
  cases hg : lua.getfenv with
  | some getfenv => simp [luaGetfenvDll, environmentOf, hg]
  | none =>
    obtain ⟨j,hj,-,-,hv⟩ := absindex_valid (ε := ε) hi (w := w)
    have hfind := findEnv_apply (ε := ε) lua (s := s) (i := j) (w := w) _ [] rfl
    rw [hv, List.length_nil] at hfind
    cases he : envOf (lua.upvalues w (value s i)) 0 with
    | none =>
      rw [he] at hfind
      simp [luaGetfenvDll, environmentOf, hg, hj, upvalueCount, hv, hfind, he, registryGlobals_apply]
    | some env =>
      rw [he] at hfind
      simp [luaGetfenvDll, environmentOf, hg, hj, upvalueCount, hv, hfind, he]

/-- The environment on the top is taken, for a function below it. -/
theorem luaSetfenvDll_apply (s : List Value) (f env : Value) (w : σ) :
    (luaSetfenvDll lua (-2) : Program ε σ Unit) ⟨s ++ [f,env],w⟩ =
      .ok ((),⟨s ++ [f],enclosed lua f env w⟩) := by
  cases hg : lua.setfenv with
  | some setfenv => simp [luaSetfenvDll, enclosed, hg, setfenvTop]
  | none =>
    have hvalid : Valid (s ++ [f,env]) (-2) := .inr ⟨by simp, by decide⟩
    obtain ⟨j,hj,hpos,hle,hv⟩ := absindex_valid (ε := ε) hvalid (w := w)
    have hf : value (s ++ [f,env]) (-2) = f := by simp
    rw [hf] at hv
    have hfind := findEnv_apply (ε := ε) lua (s := s ++ [f,env]) (i := j) (w := w) _ [] rfl
    rw [hv, List.length_nil] at hfind
    cases he : envOf (lua.upvalues w f) 0 with
    | none =>
      rw [he] at hfind
      simp [luaSetfenvDll, enclosed, hg, hj, upvalueCount, hv, hfind, he]
    | some found =>
      rw [he] at hfind
      simp [luaSetfenvDll, enclosed, hg, hj, upvalueCount, hv, hfind, he, setupvalue]

theorem copyGlobal_apply (s : List Value) (level : ℤ) (w : σ) :
    (copyGlobal lua level : Program ε σ Unit) ⟨s,w⟩ =
      .ok ((),⟨s ++ [(environmentOf lua (lua.frameFunction w level) w).1],
        (environmentOf lua (lua.frameFunction w level) w).2⟩) := by
  have hf : value (s ++ [lua.frameFunction w level]) (s.length+1) = lua.frameFunction w level :=
    LuaStack.value_above ..
  have hget := luaGetfenvDll_apply (ε := ε) lua (s := s ++ [lua.frameFunction w level]) (i := s.length+1)
    (.inl ⟨by omega,by simp⟩) w
  rw [hf] at hget
  have hremove (v : Value) : LuaStack.remove (s ++ [lua.frameFunction w level,v]) (s.length+1) = s ++ [v] :=
    LuaStack.remove_above ..
  simp [copyGlobal, getfunction, hget, hremove]

theorem chainMethod_apply (method : String) (f : ℕ) {s : List Value} {n l u g m : ℤ} (hn : Fixed s n)
    (hl : Fixed s l) (hu : Fixed s u) (hg : Fixed s g) (hm : Fixed s m) (w : σ) :
    (chainMethod lua method f n l u g m : Program ε σ Unit) ⟨s,w⟩ =
      .ok ((),⟨s,chainedMethod lua method f [value s n,value s l,value s u,value s g] (value s m) w⟩) := by
  simp [chainMethod, chainedMethod, pushcclosure, fixed_append hn, fixed_append hl, fixed_append hu,
    fixed_append hg, fixed_append hm]

theorem createChainedTable_apply {s : List Value} {n l u g : ℤ} (hn : Fixed s n) (hl : Fixed s l)
    (hu : Fixed s u) (hg : Fixed s g) (w : σ) :
    (createChainedTable lua n l u g : Program ε σ Unit) ⟨s,w⟩ =
      .ok ((),⟨s ++ [(chained lua [value s n,value s l,value s u,value s g] w).1],
        (chained lua [value s n,value s l,value s u,value s g] w).2⟩) := by
  have hm : Fixed (s ++ [(lua.newtable w).1]) (s.length+1) := ⟨by omega,by simp⟩
  have hmeta : value (s ++ [(lua.newtable w).1]) (s.length+1) = (lua.newtable w).1 := LuaStack.value_above ..
  have hchain (method : String) (f : ℕ) := chainMethod_apply (ε := ε) lua method f
    (fixed_more hn [(lua.newtable w).1]) (fixed_more hl _) (fixed_more hu _) (fixed_more hg _) hm
  simp only [hmeta, fixed_append hn, fixed_append hl, fixed_append hu, fixed_append hg] at hchain
  simp [createChainedTable, chained, hchain, hmeta, setmetatable]

/-- The three tables are left on the stack. -/
theorem createEnvironment_apply {s : List Value} {i : ℤ} (hi : Fixed s i) {level : ℤ} {w : σ}
    (hlevel : lua.getstack w level = true) :
    (createEnvironment lua level i : Program ε σ Bool) ⟨s,w⟩ =
      let e := environment lua level (value s i) w
      .ok (true,⟨s ++ [e.localTable,e.upValueTable,e.envTable],e.world⟩) := by
  have hlocal := copyLocal_apply (ε := ε) lua hi level w
  obtain ⟨l,hl⟩ : ∃ l, l = copiedLocals lua level (value s i) w := ⟨_,rfl⟩
  rw [← hl] at hlocal
  have hupvalue := copyUpvalue_apply (ε := ε) lua (fixed_more hi [l.1]) level l.2
  rw [fixed_append hi] at hupvalue
  obtain ⟨u,hu⟩ : ∃ u, u = copiedUpvalues lua level (value s i) l.2 := ⟨_,rfl⟩
  rw [← hu] at hupvalue
  have hglobal := copyGlobal_apply (ε := ε) lua (s ++ [l.1,u.1]) level u.2
  obtain ⟨g,hg⟩ : ∃ g, g = environmentOf lua (lua.frameFunction u.2 level) u.2 := ⟨_,rfl⟩
  rw [← hg] at hglobal
  have hvl : value (s ++ [l.1,u.1,g.1]) (s.length+1) = l.1 := LuaStack.value_above ..
  have hvu : value (s ++ [l.1,u.1,g.1]) (s.length+2) = u.1 := value_two ..
  have hvg : value (s ++ [l.1,u.1,g.1]) (s.length+3) = g.1 := value_three ..
  have hchained := createChainedTable_apply (ε := ε) lua (fixed_more hi [l.1,u.1,g.1])
    (l := s.length+1) ⟨by omega,by simp⟩ (u := s.length+2) ⟨by omega,by simp⟩
    (g := s.length+3) ⟨by omega,by simp⟩ g.2
  rw [fixed_append hi, hvl, hvu, hvg] at hchained
  have hremove (e : Value) : LuaStack.remove (s ++ [l.1,u.1,g.1,e]) (s.length+3) = s ++ [l.1,u.1,e] :=
    remove_three ..
  have henv : environment lua level (value s i) w =
      ⟨l.1,u.1,(chained lua [value s i,l.1,u.1,g.1] g.2).1,(chained lua [value s i,l.1,u.1,g.1] g.2).2⟩ := by
    rw [environment, ← hl, ← hu, ← hg]
  rw [henv]
  simp [createEnvironment, hlevel, hlocal, hupvalue, hglobal, hchained, hremove]

theorem createEnvironment_missing {level : ℤ} {w : σ} (hlevel : lua.getstack w level = false) (s : List Value)
    (i : ℤ) : (createEnvironment lua level i : Program ε σ Bool) ⟨s,w⟩ = .ok (false,⟨s,w⟩) := by
  simp [createEnvironment, hlevel]

def fetched (table sentinel : Value) (name : Bytes) (w : σ) : Value :=
  let v := lua.rawget w table (.string name)
  if v = sentinel then .nil else v

def restoredLocals (level : ℤ) (table sentinel : Value) (w : σ) : σ :=
  variablesWorld (fun n w => (lua.locals w level)[n]?) (fun n name _ w =>
    if isLocal name then lua.setlocal w level n (fetched lua table sentinel name w) else w)
    (lua.locals w level).length 0 w

def restoredUpvalues (level : ℤ) (table sentinel : Value) (w : σ) : σ :=
  let f := lua.frameFunction w level
  variablesWorld (fun n w => (lua.upvalues w f)[n]?) (fun n name _ w =>
    if isUpvalue name then lua.setupvalue w f n (fetched lua table sentinel name w) else w)
    (lua.upvalues w f).length 0 w

theorem fetch_apply {s : List Value} {t i : ℤ} (ht : Fixed s t) (hi : Fixed s i) (name : Bytes) (w : σ) :
    (fetch lua t i name : Program ε σ Unit) ⟨s,w⟩ =
      .ok ((),⟨s ++ [fetched lua (value s t) (value s i) name w],w⟩) := by
  by_cases h : lua.rawget w (value s t) (.string name) = value s i
  · simp [fetch, fetched, fixed_append ht, fixed_append hi, h]
  · simp [fetch, fetched, fixed_append ht, fixed_append hi, h]

theorem setLocals_apply {s : List Value} {t i : ℤ} (ht : Fixed s t) (hi : Fixed s i) (level : ℤ) (w : σ) :
    (setLocals lua level t i : Program ε σ Unit) ⟨s,w⟩ =
      .ok ((),⟨s,restoredLocals lua level (value s t) (value s i) w⟩) := by
  have hbody (n : ℕ) (name : Bytes) (v : Value) (w : σ) :
      (do
        pop 1
        if isLocal name then do
          fetch lua t i name
          setlocal lua level n
        else return () : Program ε σ Unit) ⟨s ++ [v],w⟩ = leaving s (.ok ((),if isLocal name then
          lua.setlocal w level n (fetched lua (value s t) (value s i) name w) else w)) := by
    by_cases hn : isLocal name = true
    · simp [hn, fetch_apply lua ht hi, setlocal]
    · simp [hn]
  obtain ⟨us,hloop⟩ := forVariables_total (reads_local lua level s) hbody (lua.locals w level).length w
  simp [setLocals, localCount, hloop, restoredLocals]

theorem setUpValues_apply {s : List Value} {t i : ℤ} (ht : Fixed s t) (hi : Fixed s i) (level : ℤ) (w : σ) :
    (setUpValues lua level t i : Program ε σ Unit) ⟨s,w⟩ =
      .ok ((),⟨s,restoredUpvalues lua level (value s t) (value s i) w⟩) := by
  obtain ⟨f,hframe⟩ : ∃ f, f = lua.frameFunction w level := ⟨_,rfl⟩
  have hf : value (s ++ [f]) (s.length+1) = f := LuaStack.value_above ..
  have hbody (n : ℕ) (name : Bytes) (v : Value) (w : σ) :
      (do
        pop 1
        if isUpvalue name then do
          fetch lua t i name
          setupvalue lua (s.length+1) n
        else return () : Program ε σ Unit) ⟨s ++ [f] ++ [v],w⟩ = leaving (s ++ [f]) (.ok ((),
          if isUpvalue name then lua.setupvalue w f n (fetched lua (value s t) (value s i) name w) else w)) := by
    by_cases hn : isUpvalue name = true
    · have hfetch := fetch_apply (ε := ε) lua (fixed_more ht [f]) (fixed_more hi [f]) name w
      rw [fixed_append ht, fixed_append hi] at hfetch
      have hf' (v : Value) : value (s ++ [f,v]) (s.length+1) = f := LuaStack.value_above ..
      simp [hn, hfetch, setupvalue, hf']
    · simp [hn]
  obtain ⟨us,hloop⟩ := forVariables_total (reads_upvalue lua (s.length+1) (s ++ [f])) hbody
    (lua.upvalues w f).length w
  rw [hf] at hloop
  simp [setUpValues, getfunction, ← hframe, upvalueCount, hf, hloop, restoredUpvalues]

end Effects

end Vecoda.FrameTables

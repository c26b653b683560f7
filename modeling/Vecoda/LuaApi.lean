import Vecoda.LuaStack

/-!
# Programs on the Lua API

A program reads and changes the stack of a state and the world behind it: the
tables, the frames and the programs of the values. `Lua` says what the library
and those programs do. A program can be left by an error nobody catches, by a
fault of its own, or not at all, which `endless` stands for.
-/

set_option autoImplicit false

namespace Vecoda.LuaApi
open LuaStack (Status Result adjust)

/-- A float with an integral value counts as an integer, as a key does. -/
inductive Value where
  | nil
  | boolean (b : Bool)
  | integer (i : ℤ)
  | float (bits : UInt64)
  | string (s : List UInt8)
  | table (id : ℕ)
  | function (id : ℕ)
  | userdata (id : ℕ)
  | lightuserdata (address : ℕ)
  | thread (id : ℕ)
  | cdata (id : ℕ)
  deriving DecidableEq

inductive Loaded where
  | ok (f : Value)
  | syntaxError (message : Value)
  | failed (message : Value)

def Loaded.pushed : Loaded → Value
  | .ok f => f
  | .syntaxError message => message
  | .failed message => message

/-- `keys` lists the fields of a table in the order of a traversal, those among them that have been
cleared; a traversal from any other key raises `invalidKey`. `gettable` and the calls run the
program. `getfenv` and `setfenv` are there before Lua 5.2. -/
structure Lua (σ : Type) where
  checkstack : σ → ℕ → ℕ → Bool
  newtable : σ → Value × σ
  newuserdata : σ → Value × σ
  registry : Value
  rawget : σ → Value → Value → Value
  rawset : σ → Value → Value → Value → σ
  keys : σ → Value → List Value
  keys_nodup : ∀ w t, (keys w t).Nodup
  nil_not_key : ∀ w t, Value.nil ∉ keys w t
  invalidKey : σ → Value
  ref : σ → Value → Value → ℤ × σ
  unref : σ → Value → ℤ → σ
  getmetatable : σ → Value → Option ℕ
  setmetatable : σ → Value → Value → σ
  gettable : σ → Value → Value → Except Value (Value × σ)
  pushcclosure : σ → ℕ → List Value → Value × σ
  call : σ → Value → List Value → Result Value × σ
  load : σ → List UInt8 → Loaded × σ
  getstack : σ → ℤ → Bool
  frameFunction : σ → ℤ → Value
  «locals» : σ → ℤ → List (List UInt8 × Value)
  setlocal : σ → ℤ → ℕ → Value → σ
  upvalues : σ → Value → List (List UInt8 × Value)
  setupvalue : σ → Value → ℕ → Value → σ
  getfenv : Option (σ → Value → Value)
  setfenv : Option (σ → Value → Value → σ)
  numeral : Value → List UInt8
  pointer : Value → List UInt8
  source : σ → Value → List UInt8
  lineDefined : σ → Value → ℤ

def Lua.idle (σ : Type) : Lua σ where
  checkstack _ _ _ := true
  newtable w := (.table 0,w)
  newuserdata w := (.userdata 0,w)
  registry := .nil
  rawget _ _ _ := .nil
  rawset w _ _ _ := w
  keys _ _ := []
  keys_nodup _ _ := List.nodup_nil
  nil_not_key _ _ := List.not_mem_nil
  invalidKey _ := .nil
  ref w _ _ := (0,w)
  unref w _ _ := w
  getmetatable _ _ := none
  setmetatable w _ _ := w
  gettable w _ _ := .ok (.nil,w)
  pushcclosure w _ _ := (.function 0,w)
  call w _ _ := (.returns [],w)
  load w _ := (.ok (.function 0),w)
  getstack _ _ := true
  frameFunction _ _ := .function 0
  «locals» _ _ := []
  setlocal w _ _ _ := w
  upvalues _ _ := []
  setupvalue w _ _ _ := w
  getfenv := some (fun _ _ => .nil)
  setfenv := some (fun w _ _ => w)
  numeral _ := []
  pointer _ := []
  source _ _ := []
  lineDefined _ _ := 0

structure State (σ : Type) where
  stack : List Value
  world : σ

inductive Fault (ε : Type) where
  | raised (e : Value)
  | endless
  | fault (x : ε)

def Program (ε σ α : Type) : Type := State σ → Except (Fault ε) (α × State σ)

variable {ε σ α β : Type}

theorem fault_ne_endless (x : ε) : Fault.fault x ≠ .endless := by
  intro h
  cases h

instance : Monad (Program ε σ) where
  pure a := fun s => .ok (a,s)
  bind p f := fun s => (p s).bind (fun r => f r.1 r.2)

inductive Index where
  | stack (i : ℤ)
  | registry

instance : Coe ℤ Index := ⟨.stack⟩

section Values

variable (lua : Lua σ)

def value (s : List Value) (i : ℤ) : Value := LuaStack.value .nil s i

def Lua.at (s : List Value) : Index → Value
  | .stack i => value s i
  | .registry => lua.registry

def Lua.tostring : Value → Option (List UInt8)
  | .string s => some s
  | .integer i => some (lua.numeral (.integer i))
  | .float bits => some (lua.numeral (.float bits))
  | _ => none

def tointeger : Value → ℤ
  | .integer i => i
  | _ => 0

def behind (key : Value) : List Value → Option (List Value)
  | [] => none
  | k::keys => if k = key then some keys else behind key keys

/-- From nil on, all of them. -/
def after (key : Value) (keys : List Value) : Option (List Value) :=
  if key = .nil then some keys else behind key keys

/-- The next field that is not nil, in the table as it is. A key that is not in it is an error. -/
def Lua.next (w : σ) (t key : Value) : Option (Option Value) :=
  (after key (lua.keys w t)).map (fun keys => keys.find? (fun k => lua.rawget w t k ≠ .nil))

end Values

section Operations

variable (lua : Lua σ)

def halt (f : Fault ε) : Program ε σ α := fun _ => .error f

def gettop : Program ε σ ℤ := fun s => .ok (s.stack.length,s)

def absindex (i : ℤ) : Program ε σ ℤ := fun s =>
  .ok (if 0 < i then i else s.stack.length+i+1,s)

def look (i : ℤ) : Program ε σ Value := fun s => .ok (value s.stack i,s)

def world : Program ε σ σ := fun s => .ok (s.world,s)

def push (v : Value) : Program ε σ Unit := fun s => .ok ((),{s with stack := s.stack ++ [v]})

def pushvalue (i : ℤ) : Program ε σ Unit := fun s =>
  .ok ((),{s with stack := s.stack ++ [value s.stack i]})

def pop (n : ℕ) : Program ε σ Unit := fun s => .ok ((),{s with stack := LuaStack.pop s.stack n})

def insert (i : ℤ) : Program ε σ Unit := fun s =>
  .ok ((),{s with stack := LuaStack.insert .nil s.stack i})

def remove (i : ℤ) : Program ε σ Unit := fun s =>
  .ok ((),{s with stack := LuaStack.remove s.stack i})

def checkstack (n : ℕ) : Program ε σ Bool := fun s =>
  .ok (lua.checkstack s.world s.stack.length n,s)

def newtable : Program ε σ Unit := fun s =>
  .ok ((),⟨s.stack ++ [(lua.newtable s.world).1],(lua.newtable s.world).2⟩)

def newuserdata : Program ε σ Unit := fun s =>
  .ok ((),⟨s.stack ++ [(lua.newuserdata s.world).1],(lua.newuserdata s.world).2⟩)

def rawget (t : Index) : Program ε σ Unit := fun s =>
  .ok ((),{s with stack := LuaStack.pop s.stack 1 ++
    [lua.rawget s.world (lua.at s.stack t) (value s.stack (-1))]})

def rawgeti (t : Index) (i : ℤ) : Program ε σ Unit := fun s =>
  .ok ((),{s with stack := s.stack ++ [lua.rawget s.world (lua.at s.stack t) (.integer i)]})

def rawset (t : Index) : Program ε σ Unit := fun s =>
  .ok ((),⟨LuaStack.pop s.stack 2,
    lua.rawset s.world (lua.at s.stack t) (value s.stack (-2)) (value s.stack (-1))⟩)

def ref (t : Index) : Program ε σ ℤ := fun s =>
  let (r,w) := lua.ref s.world (lua.at s.stack t) (value s.stack (-1))
  .ok (r,⟨LuaStack.pop s.stack 1,w⟩)

def unref (t : Index) (r : ℤ) : Program ε σ Unit := fun s =>
  .ok ((),{s with world := lua.unref s.world (lua.at s.stack t) r})

def getmetatable (i : ℤ) : Program ε σ Bool := fun s =>
  match lua.getmetatable s.world (value s.stack i) with
  | some mt => .ok (true,{s with stack := s.stack ++ [.table mt]})
  | none => .ok (false,s)

def setmetatable (i : ℤ) : Program ε σ Unit := fun s =>
  .ok ((),⟨LuaStack.pop s.stack 1,lua.setmetatable s.world (value s.stack i) (value s.stack (-1))⟩)

def gettable (t : ℤ) : Program ε σ Unit := fun s =>
  match lua.gettable s.world (value s.stack t) (value s.stack (-1)) with
  | .ok (v,w) => .ok ((),⟨LuaStack.pop s.stack 1 ++ [v],w⟩)
  | .error e => .error (.raised e)

def pushcclosure (f : ℕ) (n : ℕ) : Program ε σ Unit := fun s =>
  let (v,w) := lua.pushcclosure s.world f (s.stack.drop (s.stack.length-n))
  .ok ((),⟨LuaStack.pop s.stack n ++ [v],w⟩)

def pcall (nargs : ℕ) (nresults : Option ℕ) : Program ε σ Status := fun s =>
  let base := LuaStack.pop s.stack (nargs+1)
  match lua.call s.world (value s.stack (-(nargs+1))) (s.stack.drop (s.stack.length-nargs)) with
  | (.returns vs,w) => .ok (.ok,⟨base ++ adjust .nil nresults vs,w⟩)
  | (.raises e,w) => .ok (.errRun,⟨base ++ [e],w⟩)

def load (chunk : List UInt8) : Program ε σ Loaded := fun s =>
  let (l,w) := lua.load s.world chunk
  .ok (l,⟨s.stack ++ [l.pushed],w⟩)

def pushNamed (found : Option (List UInt8 × Value)) : Program ε σ (Option (List UInt8)) := fun s =>
  match found with
  | some (name,v) => .ok (some name,{s with stack := s.stack ++ [v]})
  | none => .ok (none,s)

def getlocal (level : ℤ) (n : ℕ) : Program ε σ (Option (List UInt8)) := fun s =>
  pushNamed (lua.locals s.world level)[n]? s

def setlocal (level : ℤ) (n : ℕ) : Program ε σ Unit := fun s =>
  .ok ((),⟨LuaStack.pop s.stack 1,lua.setlocal s.world level n (value s.stack (-1))⟩)

def getupvalue (f : ℤ) (n : ℕ) : Program ε σ (Option (List UInt8)) := fun s =>
  pushNamed (lua.upvalues s.world (value s.stack f))[n]? s

def setupvalue (f : ℤ) (n : ℕ) : Program ε σ Unit := fun s =>
  .ok ((),⟨LuaStack.pop s.stack 1,lua.setupvalue s.world (value s.stack f) n (value s.stack (-1))⟩)

def getfunction (level : ℤ) : Program ε σ Unit := fun s =>
  .ok ((),{s with stack := s.stack ++ [lua.frameFunction s.world level]})

def localCount (level : ℤ) : Program ε σ ℕ := fun s => .ok ((lua.locals s.world level).length,s)

def upvalueCount (f : ℤ) : Program ε σ ℕ := fun s =>
  .ok ((lua.upvalues s.world (value s.stack f)).length,s)

/-- `for (n = 1; name = lua_getlocal(L, ar, n); ++n)`, counted from zero, over a frame or a function
that keeps its variables. The body finds the value on the top and takes it away. -/
def forVariables (read : ℕ → Program ε σ (Option (List UInt8))) (body : ℕ → List UInt8 → Program ε σ α) :
    ℕ → ℕ → Program ε σ (List α)
  | 0, _ => return []
  | count+1, n => do
    let name ← read n
    match name with
    | none => return []
    | some name => do
      let a ← body n name
      let as ← forVariables read body count (n+1)
      return a::as

def next (t : ℤ) : Program ε σ Bool := fun s =>
  let table := value s.stack t
  match lua.next s.world table (value s.stack (-1)) with
  | none => .error (.raised (lua.invalidKey s.world))
  | some none => .ok (false,{s with stack := LuaStack.pop s.stack 1})
  | some (some key) =>
    .ok (true,{s with stack := LuaStack.pop s.stack 1 ++ [key,lua.rawget s.world table key]})

/-- `while (lua_next(L, t))`, for a number of rounds at most. The body leaves key and value. -/
def whileNext (t : ℤ) (body : Program ε σ α) : ℕ → Program ε σ (List α)
  | 0 => halt .endless
  | rounds+1 => do
    let more ← next lua t
    if more then do
      let a ← body
      pop 1
      let as ← whileNext t body rounds
      return a::as
    else return []

def forNext (t : ℤ) (body : Program ε σ α) (rounds : ℕ) : Program ε σ (List α) := do
  push .nil
  whileNext lua t body rounds

end Operations

section Running

@[simp] theorem ok_bind {x : α} {f : α → Except (Fault ε) β} :
    (Except.ok x : Except (Fault ε) α).bind f = f x := rfl

@[simp] theorem error_bind {e : Fault ε} {f : α → Except (Fault ε) β} :
    (Except.error e : Except (Fault ε) α).bind f = .error e := rfl

@[simp] theorem bind_apply (p : Program ε σ α) (f : α → Program ε σ β) (s : State σ) :
    (p >>= f) s = (p s).bind (fun r => f r.1 r.2) := rfl

@[simp] theorem pure_apply (a : α) (s : State σ) : (pure a : Program ε σ α) s = .ok (a,s) := rfl

variable (lua : Lua σ) (s : List Value) (w : σ)

@[simp] theorem halt_apply (f : Fault ε) : (halt f : Program ε σ α) ⟨s,w⟩ = .error f := rfl

@[simp] theorem gettop_apply : (gettop : Program ε σ ℤ) ⟨s,w⟩ = .ok (s.length,⟨s,w⟩) := rfl

@[simp] theorem look_apply (i : ℤ) : (look i : Program ε σ Value) ⟨s,w⟩ = .ok (value s i,⟨s,w⟩) := rfl

@[simp] theorem world_apply : (world : Program ε σ σ) ⟨s,w⟩ = .ok (w,⟨s,w⟩) := rfl

@[simp] theorem push_apply (v : Value) : (push v : Program ε σ Unit) ⟨s,w⟩ = .ok ((),⟨s ++ [v],w⟩) := rfl

@[simp] theorem pushvalue_apply (i : ℤ) :
    (pushvalue i : Program ε σ Unit) ⟨s,w⟩ = .ok ((),⟨s ++ [value s i],w⟩) := rfl

@[simp] theorem pop_apply (n : ℕ) :
    (pop n : Program ε σ Unit) ⟨s,w⟩ = .ok ((),⟨LuaStack.pop s n,w⟩) := rfl

@[simp] theorem remove_apply (i : ℤ) :
    (remove i : Program ε σ Unit) ⟨s,w⟩ = .ok ((),⟨LuaStack.remove s i,w⟩) := rfl

@[simp] theorem insert_apply (i : ℤ) :
    (insert i : Program ε σ Unit) ⟨s,w⟩ = .ok ((),⟨LuaStack.insert .nil s i,w⟩) := rfl

@[simp] theorem checkstack_apply (n : ℕ) : (checkstack lua n : Program ε σ Bool) ⟨s,w⟩ =
    .ok (lua.checkstack w s.length n,⟨s,w⟩) := rfl

@[simp] theorem newtable_apply : (newtable lua : Program ε σ Unit) ⟨s,w⟩ =
    .ok ((),⟨s ++ [(lua.newtable w).1],(lua.newtable w).2⟩) := rfl

@[simp] theorem newuserdata_apply : (newuserdata lua : Program ε σ Unit) ⟨s,w⟩ =
    .ok ((),⟨s ++ [(lua.newuserdata w).1],(lua.newuserdata w).2⟩) := rfl

@[simp] theorem rawget_apply (i : Index) : (rawget lua i : Program ε σ Unit) ⟨s,w⟩ =
    .ok ((),⟨LuaStack.pop s 1 ++ [lua.rawget w (lua.at s i) (value s (-1))],w⟩) := rfl

@[simp] theorem rawgeti_apply (i : Index) (n : ℤ) : (rawgeti lua i n : Program ε σ Unit) ⟨s,w⟩ =
    .ok ((),⟨s ++ [lua.rawget w (lua.at s i) (.integer n)],w⟩) := rfl

@[simp] theorem rawset_apply (i : Index) : (rawset lua i : Program ε σ Unit) ⟨s,w⟩ =
    .ok ((),⟨LuaStack.pop s 2,lua.rawset w (lua.at s i) (value s (-2)) (value s (-1))⟩) := rfl

@[simp] theorem ref_apply (i : Index) : (ref lua i : Program ε σ ℤ) ⟨s,w⟩ =
    .ok ((lua.ref w (lua.at s i) (value s (-1))).1,
      ⟨LuaStack.pop s 1,(lua.ref w (lua.at s i) (value s (-1))).2⟩) := rfl

@[simp] theorem unref_apply (i : Index) (r : ℤ) : (unref lua i r : Program ε σ Unit) ⟨s,w⟩ =
    .ok ((),⟨s,lua.unref w (lua.at s i) r⟩) := rfl

@[simp] theorem load_apply (chunk : List UInt8) : (load lua chunk : Program ε σ Loaded) ⟨s,w⟩ =
    .ok ((lua.load w chunk).1,⟨s ++ [(lua.load w chunk).1.pushed],(lua.load w chunk).2⟩) := rfl

theorem getmetatable_some {i : ℤ} {mt : ℕ} (h : lua.getmetatable w (value s i) = some mt) :
    (getmetatable lua i : Program ε σ Bool) ⟨s,w⟩ = .ok (true,⟨s ++ [.table mt],w⟩) := by
  simp only [getmetatable, h]

theorem getmetatable_none {i : ℤ} (h : lua.getmetatable w (value s i) = none) :
    (getmetatable lua i : Program ε σ Bool) ⟨s,w⟩ = .ok (false,⟨s,w⟩) := by
  simp only [getmetatable, h]

section Next

variable {lua s w} {t : ℤ} {key k : Value}

theorem next_invalid (h : lua.next w (value s t) (value s (-1)) = none) :
    (next lua t : Program ε σ Bool) ⟨s,w⟩ = .error (.raised (lua.invalidKey w)) := by
  simp only [next, h]

theorem next_done (h : lua.next w (value s t) (value s (-1)) = some none) :
    (next lua t : Program ε σ Bool) ⟨s,w⟩ = .ok (false,⟨LuaStack.pop s 1,w⟩) := by
  simp only [next, h]

theorem next_field (h : lua.next w (value s t) (value s (-1)) = some (some k)) :
    (next lua t : Program ε σ Bool) ⟨s,w⟩ =
      .ok (true,⟨LuaStack.pop s 1 ++ [k,lua.rawget w (value s t) k],w⟩) := by
  simp only [next, h]

end Next

@[simp] theorem at_stack (i : ℤ) : lua.at s (.stack i) = value s i := rfl

@[simp] theorem at_registry : lua.at s .registry = lua.registry := rfl

end Running

section Stack

variable (s t : List Value) (v u : Value)

def Valid (s : List Value) (i : ℤ) : Prop := 0 < i ∧ i ≤ s.length ∨ -s.length ≤ i ∧ i < 0

instance (s : List Value) (i : ℤ) : Decidable (Valid s i) := inferInstanceAs (Decidable (_ ∨ _))

theorem absindex_valid {s : List Value} {i : ℤ} (h : Valid s i) {w : σ} :
    ∃ j, (absindex i : Program ε σ ℤ) ⟨s,w⟩ = .ok (j,⟨s,w⟩) ∧
      0 < j ∧ j ≤ s.length ∧ value s j = value s i := by
  rcases h with ⟨h,hl⟩ | ⟨hl,h⟩
  · exact ⟨i,by rw [absindex, if_pos h],h,hl,rfl⟩
  · refine ⟨s.length+i+1,by rw [absindex, if_neg (by omega)],by omega,by omega,?_⟩
    have hp : LuaStack.position s (s.length+i+1) = LuaStack.position s i := by
      unfold LuaStack.position
      rw [if_pos (by omega), if_neg (by omega)]
      congr 1
      omega
    rw [value, value, LuaStack.value, LuaStack.value, hp]

theorem value_append_left {i : ℤ} (h : 0 < i) (hl : i ≤ s.length) : value (s ++ t) i = value s i := by
  have hp : LuaStack.position (s ++ t) i = (i-1).toNat := if_pos h
  have hq : LuaStack.position s i = (i-1).toNat := if_pos h
  rw [value, value, LuaStack.value, LuaStack.value, hp, hq, List.getD_eq_getElem?_getD,
    List.getD_eq_getElem?_getD, List.getElem?_append_left (by omega)]

def Fixed (s : List Value) (i : ℤ) : Prop := 0 < i ∧ i ≤ s.length

theorem fixed_append {s : List Value} {i : ℤ} (h : Fixed s i) (t : List Value) :
    value (s ++ t) i = value s i := value_append_left _ _ h.1 h.2

theorem fixed_more {s : List Value} {i : ℤ} (h : Fixed s i) (t : List Value) : Fixed (s ++ t) i :=
  ⟨h.1,by rw [List.length_append]; have := h.2; omega⟩

theorem value_append_right {i : ℤ} (h : -t.length ≤ i) (hn : i < 0) : value (s ++ t) i = value t i := by
  have hp : LuaStack.position (s ++ t) i = s.length+LuaStack.position t i := by
    unfold LuaStack.position
    rw [if_neg (by omega), if_neg (by omega), List.length_append]
    omega
  rw [value, value, LuaStack.value, LuaStack.value, hp, List.getD_eq_getElem?_getD,
    List.getD_eq_getElem?_getD, List.getElem?_append_right (Nat.le_add_right ..), Nat.add_sub_cancel_left]

theorem value_two (x : Value) : value (s ++ u::x::t) (s.length+2) = x := by
  have h := LuaStack.value_above .nil x (s ++ [u]) t
  have he : ((s ++ [u]).length : ℤ)+1 = s.length+2 := by
    rw [List.length_append, List.length_singleton]
    omega
  rw [he, List.append_assoc] at h
  exact h

theorem value_three (x : Value) : value (s ++ u::v::x::t) (s.length+3) = x := by
  have h := value_two (s ++ [u]) t v x
  have he : ((s ++ [u]).length : ℤ)+2 = s.length+3 := by
    rw [List.length_append, List.length_singleton]
    omega
  rw [he, List.append_assoc] at h
  exact h

theorem remove_three (x : Value) : LuaStack.remove (s ++ u::v::x::t) (s.length+3) = s ++ u::v::t := by
  have h := LuaStack.remove_above x (s ++ [u,v]) t
  have he : ((s ++ [u,v]).length : ℤ)+1 = s.length+3 := by
    rw [List.length_append]
    simp only [List.length_cons, List.length_nil]
    omega
  rw [he, List.append_assoc, List.append_assoc] at h
  exact h

@[simp] theorem value_top (h : 1 ≤ t.length) : value (s ++ t) (-1) = t.getD (t.length-1) .nil := by
  rw [value_append_right s t (by omega) (by decide), value, LuaStack.value]
  congr 1
  unfold LuaStack.position
  rw [if_neg (by decide)]
  omega

@[simp] theorem value_second (h : 2 ≤ t.length) : value (s ++ t) (-2) = t.getD (t.length-2) .nil := by
  rw [value_append_right s t (by omega) (by decide), value, LuaStack.value]
  congr 1
  unfold LuaStack.position
  rw [if_neg (by decide)]
  omega

theorem value_last (hs : s ≠ []) : value s s.length = s.getLastD .nil := by
  obtain ⟨us,v,rfl⟩ := List.eq_nil_or_concat s |>.resolve_left hs
  have := LuaStack.value_above .nil v us []
  rw [List.concat_eq_append, List.getLastD_concat, List.length_append]
  simpa [value] using this

theorem value_first (vs : List Value) :
    value (s ++ v::vs) (-((v::vs).length : ℕ)) = v := by
  rw [value_append_right s (v::vs) le_rfl (by rw [List.length_cons]; omega), value, LuaStack.value]
  have hp : LuaStack.position (v::vs) (-((v::vs).length : ℕ)) = 0 := by
    unfold LuaStack.position
    rw [if_neg (by omega), Int.add_right_neg]
    rfl
  rw [hp]
  rfl

@[simp] theorem pop_append (n : ℕ) (h : n ≤ t.length) :
    LuaStack.pop (s ++ t) n = s ++ t.take (t.length-n) := by
  rw [LuaStack.pop, List.length_append, Nat.add_sub_assoc h, List.take_length_add_append]

end Stack

section Leaving

/-- A result that leaves the stack `s`. -/
def leaving (s : List Value) (r : Except (Fault ε) (α × σ)) : Except (Fault ε) (α × State σ) :=
  r.bind (fun x => .ok (x.1,⟨s,x.2⟩))

@[simp] theorem leaving_ok (s : List Value) (a : α) (w : σ) :
    leaving s (.ok (a,w) : Except (Fault ε) (α × σ)) = .ok (a,⟨s,w⟩) := rfl

@[simp] theorem leaving_error (s : List Value) (e : Fault ε) :
    leaving s (.error e : Except (Fault ε) (α × σ)) = .error e := rfl

theorem leaving_eq_ok {s : List Value} {r : Except (Fault ε) (α × σ)} {a : α} {t : State σ} :
    leaving s r = .ok (a,t) ↔ ∃ u, r = .ok (a,u) ∧ t = ⟨s,u⟩ := by
  rcases r with e | ⟨b,u⟩
  · exact ⟨fun h => (by cases h),fun ⟨_,h,_⟩ => (by cases h)⟩
  · exact ⟨fun h => by cases h; exact ⟨u,rfl,rfl⟩,fun ⟨_,h,ht⟩ => by cases h; rw [ht]; rfl⟩

theorem leaving_eq_error {s : List Value} {r : Except (Fault ε) (α × σ)} {e : Fault ε} :
    leaving s r = .error e ↔ r = .error e := by
  rcases r with e' | ⟨b,u⟩
  · exact ⟨fun h => by cases h; rfl,fun h => by cases h; rfl⟩
  · exact ⟨fun h => (by cases h),fun h => (by cases h)⟩

theorem leaving_bind (s : List Value) (r : Except (Fault ε) (α × σ))
    (f : α × State σ → Except (Fault ε) β) : (leaving s r).bind f = r.bind (fun x => f (x.1,⟨s,x.2⟩)) := by
  cases r <;> rfl

theorem bind_leaving (s : List Value) (r : Except (Fault ε) α) (f : α → Except (Fault ε) (β × σ)) :
    leaving s (r.bind f) = r.bind (fun x => leaving s (f x)) := by
  cases r <;> rfl

variable (lua : Lua σ)

def fields (t : Value) (g : Value → Value → σ → Except (Fault ε) (α × σ)) :
    ℕ → Value → σ → Except (Fault ε) (List α × σ)
  | 0, _, _ => .error .endless
  | rounds+1, key, w =>
    match lua.next w t key with
    | none => .error (.raised (lua.invalidKey w))
    | some none => .ok ([],w)
    | some (some k) => (g k (lua.rawget w t k) w).bind (fun a =>
      (fields t g rounds k a.2).bind (fun as => .ok (a.1::as.1,as.2)))

section Fields

variable {lua} {t key k : Value} {g : Value → Value → σ → Except (Fault ε) (α × σ)} {w : σ}

theorem fields_invalid (h : lua.next w t key = none) (rounds : ℕ) :
    fields lua t g (rounds+1) key w = .error (.raised (lua.invalidKey w)) := by
  simp only [fields, h]

theorem fields_done (h : lua.next w t key = some none) (rounds : ℕ) :
    fields lua t g (rounds+1) key w = .ok ([],w) := by
  simp only [fields, h]

theorem fields_field (h : lua.next w t key = some (some k)) (rounds : ℕ) :
    fields lua t g (rounds+1) key w = (g k (lua.rawget w t k) w).bind (fun a =>
      (fields lua t g rounds k a.2).bind (fun as => .ok (a.1::as.1,as.2))) := by
  simp only [fields, h]

end Fields

theorem whileNext_apply {t : ℤ} {body : Program ε σ α} {g : Value → Value → σ → Except (Fault ε) (α × σ)}
    {s : List Value} (ht : 0 < t) (hts : t ≤ s.length)
    (hbody : ∀ k v w, body ⟨s ++ [k,v],w⟩ = leaving (s ++ [k,v]) (g k v w)) (rounds : ℕ) (key : Value)
    (w : σ) :
    whileNext lua t body rounds ⟨s ++ [key],w⟩ = leaving s (fields lua (value s t) g rounds key w) := by
  induction rounds generalizing key w with
  | zero => rfl
  | succ rounds ih =>
    have htable : value (s ++ [key]) t = value s t := value_append_left s [key] ht hts
    have htop : value (s ++ [key]) (-1) = key := by simp
    have hpop : LuaStack.pop (s ++ [key]) 1 = s := by simp
    rw [whileNext, bind_apply]
    cases hnext : lua.next w (value s t) key with
    | none =>
      rw [next_invalid (by rw [htable, htop, hnext]), fields_invalid hnext]
      rfl
    | some found =>
      cases found with
      | none =>
        rw [next_done (by rw [htable, htop, hnext]), fields_done hnext, hpop]
        rfl
      | some k =>
        have hkey (v : Value) : LuaStack.pop (s ++ [k,v]) 1 = s ++ [k] := by simp
        rw [next_field (by rw [htable, htop, hnext]), fields_field hnext, hpop, htable]
        simp only [ok_bind, if_true, bind_apply, hbody, leaving_bind, bind_leaving, pop_apply, hkey, ih]
        rfl

theorem forNext_apply {t : ℤ} {body : Program ε σ α} {g : Value → Value → σ → Except (Fault ε) (α × σ)}
    {s : List Value} (ht : 0 < t) (hts : t ≤ s.length)
    (hbody : ∀ k v w, body ⟨s ++ [k,v],w⟩ = leaving (s ++ [k,v]) (g k v w)) (rounds : ℕ) (w : σ) :
    forNext lua t body rounds ⟨s,w⟩ = leaving s (fields lua (value s t) g rounds .nil w) := by
  simp only [forNext, bind_apply, push_apply, ok_bind]
  exact whileNext_apply lua ht hts hbody rounds .nil w

theorem behind_append {key : Value} {front : List Value} (h : key ∉ front) (keys : List Value) :
    behind key (front ++ key::keys) = some keys := by
  induction front with
  | nil => exact if_pos rfl
  | cons k front ih =>
    have hk : k ≠ key := fun he => h (he ▸ List.mem_cons_self)
    rw [List.cons_append, behind, if_neg hk, ih (fun hmem => h (List.mem_cons_of_mem k hmem))]

variable {lua} in
/-- From a field found on, the traversal goes on with those behind it. -/
theorem after_found {w : σ} {t k : Value} {front keys : List Value} (hk : lua.keys w t = front ++ k::keys) :
    after k (lua.keys w t) = some keys := by
  have hnodup := lua.keys_nodup w t
  have hnil := lua.nil_not_key w t
  rw [hk] at hnodup hnil ⊢
  have hne : k ≠ .nil := fun h => hnil (by simp [h])
  rw [after, if_neg hne]
  refine behind_append (fun hmem => ?_) keys
  exact (List.nodup_append.mp hnodup).2.2 k hmem k List.mem_cons_self rfl

/-- From any key on: by the rounds, with the fields behind the key getting fewer. -/
theorem fields_pure_from {w : σ} {t : Value} (f : Value → Value → α) (rounds : ℕ) {key : Value}
    {front keys : List Value} (hk : lua.keys w t = front ++ keys) (hkey : after key (lua.keys w t) = some keys)
    (hl : keys.length < rounds) :
    fields lua t (fun k v w => (.ok (f k v,w) : Except (Fault ε) (α × σ))) rounds key w =
      .ok ((keys.filter (fun k => lua.rawget w t k ≠ .nil)).map (fun k => f k (lua.rawget w t k)),w) := by
  induction rounds generalizing key front keys with
  | zero => exact absurd hl (Nat.not_lt_zero _)
  | succ rounds ih =>
    have hnext : lua.next w t key = some (keys.find? (fun k => lua.rawget w t k ≠ .nil)) := by
      rw [Lua.next, hkey, Option.map_some]
    cases hfind : keys.find? (fun k => lua.rawget w t k ≠ .nil) with
    | none =>
      rw [hfind] at hnext
      rw [fields_done hnext, List.filter_eq_nil_iff.mpr (List.find?_eq_none.mp hfind)]
      rfl
    | some k =>
      rw [hfind] at hnext
      obtain ⟨hv,passed,rest,rfl,hpassed⟩ := List.find?_eq_some_iff_append.mp hfind
      have hfilter : (passed ++ k::rest).filter (fun k => lua.rawget w t k ≠ .nil) =
          k::rest.filter (fun k => lua.rawget w t k ≠ .nil) := by
        rw [List.filter_append, List.filter_eq_nil_iff.mpr (fun a ha => by simpa using hpassed a ha),
          List.nil_append, List.filter_cons, if_pos hv]
      rw [← List.append_assoc] at hk
      rw [List.length_append, List.length_cons] at hl
      have hbehind : lua.keys w t = (front ++ passed ++ [k]) ++ rest := by rw [hk]; simp
      have hrest := ih hbehind (after_found hk) (by omega)
      rw [fields_field hnext, ok_bind, hrest, hfilter]
      rfl

/-- A loop that changes nothing ends within as many rounds as there are fields. -/
theorem fields_pure (t : Value) (f : Value → Value → α) {rounds : ℕ} {w : σ}
    (hr : (lua.keys w t).length < rounds) :
    fields lua t (fun k v w => (.ok (f k v,w) : Except (Fault ε) (α × σ))) rounds .nil w =
      .ok (((lua.keys w t).filter (fun k => lua.rawget w t k ≠ .nil)).map
        (fun k => f k (lua.rawget w t k)),w) :=
  fields_pure_from lua f rounds (List.nil_append _).symm rfl hr

def eachVariable (read : ℕ → σ → Option (List UInt8 × Value))
    (g : ℕ → List UInt8 → Value → σ → Except (Fault ε) (α × σ)) : ℕ → ℕ → σ → Except (Fault ε) (List α × σ)
  | 0, _, w => .ok ([],w)
  | count+1, n, w =>
    match read n w with
    | none => .ok ([],w)
    | some (name,v) => (g n name v w).bind (fun a =>
      (eachVariable read g count (n+1) a.2).bind (fun as => .ok (a.1::as.1,as.2)))

def Reads (read : ℕ → Program ε σ (Option (List UInt8))) (s : List Value)
    (lookup : ℕ → σ → Option (List UInt8 × Value)) : Prop :=
  ∀ n w, read n ⟨s,w⟩ = pushNamed (lookup n w) ⟨s,w⟩

theorem reads_local (level : ℤ) (s : List Value) :
    Reads (ε := ε) (getlocal lua level) s (fun n w => (lua.locals w level)[n]?) := fun _ _ => rfl

theorem reads_upvalue (f : ℤ) (s : List Value) :
    Reads (ε := ε) (getupvalue lua f) s (fun n w => (lua.upvalues w (value s f))[n]?) := fun _ _ => rfl

theorem forVariables_apply {read : ℕ → Program ε σ (Option (List UInt8))} {s : List Value}
    {lookup : ℕ → σ → Option (List UInt8 × Value)} (hread : Reads read s lookup)
    {body : ℕ → List UInt8 → Program ε σ α} {g : ℕ → List UInt8 → Value → σ → Except (Fault ε) (α × σ)}
    (hbody : ∀ n name v w, body n name ⟨s ++ [v],w⟩ = leaving s (g n name v w)) (count n : ℕ) (w : σ) :
    forVariables read body count n ⟨s,w⟩ = leaving s (eachVariable lookup g count n w) := by
  induction count generalizing n w with
  | zero => rfl
  | succ count ih =>
    rw [forVariables, eachVariable, bind_apply, hread]
    cases hv : lookup n w with
    | none => rfl
    | some e =>
      obtain ⟨name,v⟩ := e
      simp only [pushNamed, ok_bind, bind_apply, hbody, leaving_bind, bind_leaving, ih, pure_apply]
      rfl

def variablesWorld (read : ℕ → σ → Option (List UInt8 × Value)) (g : ℕ → List UInt8 → Value → σ → σ) :
    ℕ → ℕ → σ → σ
  | 0, _, w => w
  | count+1, n, w =>
    match read n w with
    | none => w
    | some (name,v) => variablesWorld read g count (n+1) (g n name v w)

theorem eachVariable_total (read : ℕ → σ → Option (List UInt8 × Value))
    (g : ℕ → List UInt8 → Value → σ → σ) (count n : ℕ) (w : σ) : ∃ us,
      eachVariable read (fun n name v w => (.ok ((),g n name v w) : Except (Fault ε) (Unit × σ))) count n w =
        .ok (us,variablesWorld read g count n w) := by
  induction count generalizing n w with
  | zero => exact ⟨[],rfl⟩
  | succ count ih =>
    rw [eachVariable, variablesWorld]
    cases read n w with
    | none => exact ⟨[],rfl⟩
    | some e =>
      obtain ⟨name,v⟩ := e
      obtain ⟨us,hus⟩ := ih (n+1) (g n name v w)
      exact ⟨()::us,by simp only [ok_bind, hus]⟩

end Leaving

end Vecoda.LuaApi

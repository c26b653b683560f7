import Vecoda.LuaText
import Vecoda.Slots

/-!
# Watch evaluation

`Evaluate` runs an expression in an environment of three tables and writes the
first two back into the frame. An expression is what it does with names: it
reads and assigns them one after another, each step depending on what it has
read, until it is done or fails. The values other than `nil` are arbitrary.
The environment table is its own metatable, so that the two names of its
fields are left out.
-/

set_option autoImplicit false

namespace Vecoda.Watch
open MessagePipe LuaText Slots

inductive TValue (α : Type) where
  | nil
  | nilSentinel
  | value (a : α)

variable {α : Type}

def TValue.isNil : TValue α → Bool
  | nil => true
  | _ => false

def sentinelOfNil : Option α → TValue α
  | none => .nilSentinel
  | some a => .value a

def nilOfSentinel : TValue α → Option α
  | .value a => some a
  | _ => none

abbrev Table (α : Type) := Bytes → TValue α

@[ext] structure Frame (α : Type) where
  locals : List (Bytes × Option α)
  upvalues : List (Bytes × Option α)
  globals : Bytes → Option α

def getIsInternalVariable (name : Bytes) : Bool := name.head? = some (byte '(')

def isLocal (name : Bytes) : Bool := !getIsInternalVariable name

def isUpvalue (name : Bytes) : Bool := !name.isEmpty

def copyLocal (locals : List (Bytes × Option α)) : Table α :=
  locals.foldl (fun t p => if isLocal p.1 then Function.update t p.1 (sentinelOfNil p.2) else t)
    (fun _ => .nil)

def copyUpvalue (upvalues : List (Bytes × Option α)) : Table α :=
  upvalues.foldl (fun t p => if isUpvalue p.1 then Function.update t p.1 (sentinelOfNil p.2) else t)
    (fun _ => .nil)

structure Environment (α : Type) where
  localTable : Table α
  upValueTable : Table α
  globalTable : Bytes → Option α

def createEnvironment (f : Frame α) : Environment α :=
  ⟨copyLocal f.locals,copyUpvalue f.upvalues,f.globals⟩

def indexChained (env : Environment α) (key : Bytes) : Option α :=
  let v := env.localTable key
  let v := if v.isNil then env.upValueTable key else v
  if v.isNil then env.globalTable key else nilOfSentinel v

def newIndexChained (env : Environment α) (key : Bytes) (value : Option α) : Environment α :=
  if !(env.localTable key).isNil then
    {env with localTable := Function.update env.localTable key (sentinelOfNil value)}
  else if !(env.upValueTable key).isNil then
    {env with upValueTable := Function.update env.upValueTable key (sentinelOfNil value)}
  else {env with globalTable := Function.update env.globalTable key value}

def setLocals (table : Table α) (locals : List (Bytes × Option α)) : List (Bytes × Option α) :=
  refill isLocal (fun name => nilOfSentinel (table name)) locals

def setUpValues (table : Table α) (upvalues : List (Bytes × Option α)) : List (Bytes × Option α) :=
  refill isUpvalue (fun name => nilOfSentinel (table name)) upvalues

abbrev Name := {name : Bytes // name ≠ text "__index" ∧ name ≠ text "__newindex"}

inductive Expression (α : Type) where
  | done
  | read (name : Name) (k : Option α → Expression α)
  | write (name : Name) (value : Option α) (k : Expression α)

section Run

variable {σ τ : Type}

def run (read : σ → Bytes → Option α) (write : σ → Bytes → Option α → σ) :
    Expression α → σ → List (Option α) × σ
  | .done, s => ([],s)
  | .read name k, s =>
    let v := read s name
    let (vs,s) := run read write (k v) s
    (v::vs,s)
  | .write name value k, s => run read write k (write s name value)

theorem run_simulation {R : σ → τ → Prop} {read : σ → Bytes → Option α}
    {write : σ → Bytes → Option α → σ} {read' : τ → Bytes → Option α}
    {write' : τ → Bytes → Option α → τ} (hread : ∀ s t n, R s t → read s n = read' t n)
    (hwrite : ∀ s t n v, R s t → R (write s n v) (write' t n v)) (e : Expression α) (s : σ) (t : τ)
    (h : R s t) : (run read write e s).1 = (run read' write' e t).1 ∧
      R (run read write e s).2 (run read' write' e t).2 := by
  induction e generalizing s t with
  | done => exact ⟨rfl,h⟩
  | read n k ih =>
    obtain ⟨hvs,hs⟩ := ih (read s n) s t h
    simp only [run, ← hread s t n h]
    exact ⟨by rw [hvs],hs⟩
  | write n v k ih => exact ih (write s n v) (write' t n v) (hwrite s t n v h)

end Run

def evaluate (f : Frame α) (e : Expression α) : List (Option α) × Frame α :=
  let (reads,env) := run indexChained newIndexChained e (createEnvironment f)
  (reads,⟨setLocals env.localTable f.locals,setUpValues env.upValueTable f.upvalues,env.globalTable⟩)

def lookup (f : Frame α) (n : Bytes) : Option α :=
  match find isLocal n f.locals with
  | some v => v
  | none =>
    match find isUpvalue n f.upvalues with
    | some v => v
    | none => f.globals n

def store (f : Frame α) (n : Bytes) (v : Option α) : Frame α :=
  if (find isLocal n f.locals).isSome then {f with locals := assign isLocal n v f.locals}
  else if (find isUpvalue n f.upvalues).isSome then
    {f with upvalues := assign isUpvalue n v f.upvalues}
  else {f with globals := Function.update f.globals n v}

def execute (f : Frame α) (e : Expression α) : List (Option α) × Frame α := run lookup store e f

/-- A table holds the innermost value of every name. -/
def Flat (shown : Bytes → Bool) (table : Table α) (slots : List (Bytes × Option α)) : Prop :=
  ∀ n, table n = ((find shown n slots).map sentinelOfNil).getD .nil

structure Mirrors (f : Frame α) (env : Environment α) (g : Frame α) : Prop where
  locals : Flat isLocal env.localTable g.locals
  upvalues : Flat isUpvalue env.upValueTable g.upvalues
  globals : env.globalTable = g.globals
  keptLocals : List.Forall₂ (Kept isLocal) f.locals g.locals
  keptUpvalues : List.Forall₂ (Kept isUpvalue) f.upvalues g.upvalues

@[simp] theorem isNil_sentinelOfNil (v : Option α) : (sentinelOfNil v).isNil = false := by
  cases v <;> rfl

@[simp] theorem nilOfSentinel_sentinelOfNil (v : Option α) : nilOfSentinel (sentinelOfNil v) = v := by
  cases v <;> rfl

section Tables

variable {shown : Bytes → Bool} {table : Table α} {slots : List (Bytes × Option α)}

theorem flat_isNil (h : Flat shown table slots) (n : Bytes) :
    (!(table n).isNil) = (find shown n slots).isSome := by
  rw [h n]
  cases find shown n slots with
  | none => rfl
  | some v => simp

theorem flat_assign (h : Flat shown table slots) (n : Bytes) (v : Option α)
    (hn : (find shown n slots).isSome = true) :
    Flat shown (Function.update table n (sentinelOfNil v)) (assign shown n v slots) := by
  intro m
  rw [find_assign]
  by_cases hm : m = n
  · subst hm
    simp [hn]
  · simp [hm, h m]

theorem flat_value (h : Flat shown table slots) (n : Bytes) (v : Option α)
    (hv : find shown n slots = some v) : nilOfSentinel (table n) = v := by
  rw [h n, hv]
  simp

end Tables

theorem mirrors_start (f : Frame α) : Mirrors f (createEnvironment f) f where
  locals := fun n => foldl_find sentinelOfNil f.locals _ n
  upvalues := fun n => foldl_find sentinelOfNil f.upvalues _ n
  globals := rfl
  keptLocals := kept_refl _
  keptUpvalues := kept_refl _

theorem mirrors_read {f g : Frame α} {env : Environment α} (h : Mirrors f env g) (n : Bytes) :
    indexChained env n = lookup g n := by
  have hl := h.locals n
  have hu := h.upvalues n
  have hnil : (TValue.nil : TValue α).isNil = true := rfl
  rw [indexChained, lookup, hl, hu, h.globals]
  cases find isLocal n g.locals with
  | some v => simp
  | none =>
    cases find isUpvalue n g.upvalues with
    | some v => simp [hnil]
    | none => rfl

theorem mirrors_write {f g : Frame α} {env : Environment α} (h : Mirrors f env g) (n : Bytes)
    (v : Option α) : Mirrors f (newIndexChained env n v) (store g n v) := by
  rw [newIndexChained, store, flat_isNil h.locals, flat_isNil h.upvalues]
  split
  · rename_i hn
    exact {h with locals := flat_assign h.locals n v hn
                  keptLocals := kept_assign n v h.keptLocals}
  · split
    · rename_i hn
      exact {h with upvalues := flat_assign h.upvalues n v hn
                    keptUpvalues := kept_assign n v h.keptUpvalues}
    · exact {h with globals := by rw [h.globals]}

/-- Every read sees what Lua would see, and the frame is left as Lua would
leave it exactly when there every slot agrees with the one that hides it. -/
theorem evaluate_iff (f : Frame α) (e : Expression α) :
    (evaluate f e).1 = (execute f e).1 ∧
      ((evaluate f e).2 = (execute f e).2 ↔
        Settled isLocal (execute f e).2.locals ∧ Settled isUpvalue (execute f e).2.upvalues) := by
  obtain ⟨hreads,h⟩ := run_simulation (R := Mirrors f) (fun _ _ n h => mirrors_read h n)
    (fun _ _ n v h => mirrors_write h n v) e (createEnvironment f) f (mirrors_start f)
  have hlocals := refill_settled h.keptLocals (flat_value h.locals)
  have hupvalues := refill_settled h.keptUpvalues (flat_value h.upvalues)
  refine ⟨hreads,?_⟩
  rw [execute, ← hlocals, ← hupvalues, Frame.ext_iff]
  exact ⟨fun hf => ⟨hf.1,hf.2.1⟩,fun hf => ⟨hf.1,hf.2,h.globals⟩⟩

def shadowed : Frame ℕ := ⟨[(text "x",some 1),(text "x",some 2)],[],fun _ => none⟩

/-- An expression that does nothing overwrites the hidden local. -/
theorem shadowed_overwritten : (evaluate shadowed .done).2 ≠ (execute shadowed .done).2 ∧
    (evaluate shadowed .done).2.locals ≠ shadowed.locals := by
  have h : (evaluate shadowed .done).2.locals ≠ shadowed.locals := by decide
  exact ⟨fun heq => h (congrArg Frame.locals heq),h⟩

end Vecoda.Watch

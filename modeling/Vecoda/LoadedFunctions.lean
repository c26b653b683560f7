import Mathlib.Data.Int.Notation
import Mathlib.Data.List.Nodup
import Mathlib.Logic.Function.Basic

/-!
# The functions of a Lua module

`LoadLuaFunctions` finds the version of a module by the symbols it has, takes
the functions of that version, renames those whose signature has changed, and
hooks what the debugger intercepts. A pointer is an address, `NULL` is zero, and
`MH_CreateHook` hands back no original for a function that is hooked already.
-/

set_option autoImplicit false

namespace Vecoda.LoadedFunctions

abbrev Address := ℕ

inductive Field where
  | luaTag
  | luaLMakeseed
  | luaGetctx
  | luaOpen
  | luaOpen500
  | luaNewstate
  | luaClose
  | luaNewthread
  | luaError
  | luaAbsindex
  | luaGettop
  | luaSethook
  | luaSethook530
  | luaGethookmask
  | luaGetinfo
  | luaRemove
  | luaSettable
  | luaGettable
  | luaGettable530
  | luaSetglobal
  | luaGetglobal
  | luaGetglobal530
  | luaRawget
  | luaRawget530
  | luaRawgeti
  | luaRawgeti530
  | luaRawset
  | luaPushstring520
  | luaPushstring
  | luaPushlstring
  | luaPushlstring520
  | luaType
  | luaTypename
  | luaSettop
  | luaGetlocal
  | luaSetlocal
  | luaGetstack
  | luaInsert
  | luaPushnil
  | luaPushvalue
  | luaPushinteger
  | luaPushnumber
  | luaPushcclosure
  | luaTostring
  | luaTolstring
  | luaToboolean
  | luaTointeger
  | luaTointegerx
  | luaTointegerx530
  | luaTocfunction
  | luaTonumber
  | luaTonumberx
  | luaTouserdata
  | luaLoad
  | luaLoad510
  | luaCall
  | luaCallk
  | luaPcall
  | luaPcallk
  | luaPcallk530
  | luaNewtable
  | luaCreatetable
  | luaNext
  | luaRawequal
  | luaGetmetatable
  | luaSetmetatable
  | luaLRef
  | luaLUnref
  | luaLNewmetatable
  | luaLLoadbuffer
  | luaLLoadfile
  | luaLLoadfilex
  | luaGetupvalue
  | luaSetupvalue
  | luaGetfenv
  | luaSetfenv
  | luaPushlightuserdata
  | luaPushthread
  | luaNewuserdata
  | luaLNewstate
  | luaCheckstack
  | luaRotate
  | luaNewuserdatauv
  deriving DecidableEq

inductive Handler where
  | DecodaOutput
  | HookHandler

structure LuaInterface where
  version : ℕ
  registryIndex : ℤ
  globalsIndex : ℤ
  hookTailCall : ℤ
  hookTailRet : ℤ
  dllCdecl : Field → Address
  handler : Handler → Address

def LuaInterface.set (i : LuaInterface) (f : Field) (address : Address) : LuaInterface :=
  {i with dllCdecl := Function.update i.dllCdecl f address}

abbrev Symbols := Field → Option Address

/-- The version by the symbols there are; none if the module is not related to Lua. -/
def identify (symbols : Symbols) : Option LuaInterface :=
  let luaInterface : LuaInterface := ⟨401,0,0,-1,-1,fun _ => 0,fun _ => 0⟩
  if (symbols .luaTag).isSome then some luaInterface
  else if (symbols .luaOpen).isSome then
    some {luaInterface with version := 500, registryIndex := -10000, globalsIndex := -10001}
  else if (symbols .luaCallk).isSome then
    let luaInterface :=
      {luaInterface with
        version := 520, registryIndex := -1001000, globalsIndex := 2, hookTailCall := 4}
    if (symbols .luaLMakeseed).isSome then
      some {luaInterface with version := 550, registryIndex := -(1073741823+1000)}
    else if (symbols .luaNewuserdatauv).isSome then some {luaInterface with version := 540}
    else if (symbols .luaGetctx).isNone then some {luaInterface with version := 530}
    else some luaInterface
  else if (symbols .luaGettop).isSome then
    some {luaInterface with
      version := 510, registryIndex := -10000, globalsIndex := -10002, hookTailRet := 4}
  else none

section Symbols

variable (symbols : Symbols)

def getFunctionOptional (f : Field) (i : LuaInterface) : LuaInterface :=
  match symbols f with
  | some address => i.set f address
  | none => i

/-- `GET_FUNCTION`; its error is the function of the warning, once errors are reported. -/
def getFunction (report : Bool) (f : Field) (i : LuaInterface) :
    Except (Option Field) LuaInterface :=
  let i := getFunctionOptional symbols f i
  if i.dllCdecl f = 0 then .error (if report then some f else none) else .ok i

inductive Step where
  | required (f : Field)
  | optional (f : Field)
  /-- `f` is required where `g` is missing. -/
  | without (g f : Field)
  deriving DecidableEq

def Step.run (report : Bool) (i : LuaInterface) : Step → Except (Option Field) LuaInterface
  | .required f => getFunction symbols report f i
  | .optional f => .ok (getFunctionOptional symbols f i)
  | .without g f => if i.dllCdecl g = 0 then getFunction symbols report f i else .ok i

def opening : List Step := [.optional .luaOpen,.without .luaOpen .luaNewstate]

def stackFunctions : List Step :=
  [.required .luaNewthread,.required .luaClose,.required .luaError,.optional .luaAbsindex,
    .required .luaSethook,.required .luaGetinfo,.required .luaSettable,.required .luaGettable,
    .required .luaRawget,.required .luaRawgeti,.required .luaRawset,.required .luaPushstring,
    .required .luaPushlstring,.required .luaType,.required .luaTypename,.required .luaSettop,
    .required .luaGettop,.required .luaGetlocal,.required .luaSetlocal,.required .luaGetstack,
    .required .luaPushnil,.required .luaPushvalue,.required .luaPushcclosure,
    .required .luaPushnumber,.required .luaPushlightuserdata,.required .luaCheckstack,
    .required .luaGethookmask]

def valueFunctions : List Step :=
  [.optional .luaGetglobal,.optional .luaSetglobal,.optional .luaPushinteger,
    .optional .luaTointeger,.optional .luaTointegerx,.optional .luaTostring,
    .without .luaTostring .luaTolstring,.optional .luaTonumberx,
    .without .luaTonumberx .luaTonumber,.required .luaToboolean,.required .luaTocfunction,
    .required .luaTouserdata,.optional .luaCallk,.without .luaCallk .luaCall,
    .optional .luaPcallk,.without .luaPcallk .luaPcall,.optional .luaNewtable,
    .without .luaNewtable .luaCreatetable,.required .luaLoad,.required .luaNext,
    .required .luaRawequal,.required .luaGetmetatable,.required .luaSetmetatable,
    .optional .luaLRef,.optional .luaLUnref,.required .luaLNewmetatable,
    .required .luaGetupvalue,.required .luaSetupvalue,.optional .luaGetfenv,
    .optional .luaSetfenv]

def auxiliaryFunctions : List Step :=
  [.optional .luaLNewstate,.optional .luaLLoadbuffer,.optional .luaLLoadfile,
    .optional .luaLLoadfilex]

def functions (version : ℕ) : List Step :=
  stackFunctions ++
  (if version > 520 then [.required .luaRotate]
      else [.required .luaRemove,.required .luaInsert]) ++
  valueFunctions ++
  (if version ≥ 510 then [.required .luaPushthread] else [.optional .luaPushthread]) ++
  (if version ≥ 540 then [.required .luaNewuserdatauv] else [.required .luaNewuserdata]) ++
  auxiliaryFunctions

end Symbols

def LuaInterface.move (i : LuaInterface) (f : Field × Field) : LuaInterface :=
  (i.set f.2 (i.dllCdecl f.1)).set f.1 0

def renamed520 : List (Field × Field) :=
  [(.luaPushstring,.luaPushstring520),(.luaPushlstring,.luaPushlstring520)]

def renamed530 : List (Field × Field) :=
  [(.luaRawget,.luaRawget530),(.luaSethook,.luaSethook530),(.luaGettable,.luaGettable530),
    (.luaGetglobal,.luaGetglobal530),(.luaRawgeti,.luaRawgeti530),
    (.luaTointegerx,.luaTointegerx530),(.luaPcallk,.luaPcallk530)]

def rename (i : LuaInterface) : LuaInterface :=
  let i := if i.version = 500 then (i.set .luaOpen500 (i.dllCdecl .luaLoad)).set .luaOpen 0
      else i
  let i := if i.version = 510 then i.move (.luaLoad,.luaLoad510) else i
  let i := if i.version ≥ 520 then renamed520.foldl LuaInterface.move i else i
  if i.version ≥ 530 then renamed530.foldl LuaInterface.move i else i

/-- What Hook.cpp and MinHook make; the original of a function can be called in its place. -/
structure Trampolines where
  instanceFunction : Handler → Address
  hookable : Address → Bool
  original : Address → Address
  original_ne : ∀ a, original a ≠ 0

variable (t : Trampolines)

def hookFunction (r : LuaInterface × List Address) (f : Field) : LuaInterface × List Address :=
  let function := r.1.dllCdecl f
  if function = 0 then r
  else if t.hookable function && !r.2.contains function then
    (r.1.set f (t.original function),function::r.2)
  else (r.1.set f 0,r.2)

def intercepted : List Field :=
  [.luaOpen,.luaOpen500,.luaNewstate,.luaClose,.luaNewthread,.luaPcall,.luaPcallk,
    .luaPcallk530,.luaCall,.luaCallk,.luaLoad,.luaLoad510,.luaLNewmetatable,.luaSethook,
    .luaSethook530,.luaLLoadbuffer,.luaLLoadfile,.luaLLoadfilex,.luaLNewstate]

def loadLuaFunctions (hooked : List Address) (symbols : Symbols) :
    Except (Option Field) (LuaInterface × List Address) :=
  match identify symbols with
  | none => .error none
  | some i => do
    let i ← opening.foldlM (Step.run symbols false) i
    let i ← (functions i.version).foldlM (Step.run symbols true) i
    let i := {rename i with handler := t.instanceFunction}
    return intercepted.foldl (hookFunction t) (i,hooked)

section Interface

variable {i : LuaInterface} {f g : Field} {address : Address}

@[simp] theorem set_self : (i.set f address).dllCdecl f = address := Function.update_self _ _ _

theorem set_other (h : g ≠ f) : (i.set f address).dllCdecl g = i.dllCdecl g :=
  Function.update_of_ne h _ _

@[simp] theorem set_version : (i.set f address).version = i.version := rfl

@[simp] theorem move_version (p : Field × Field) : (i.move p).version = i.version := rfl

end Interface

section Sources

variable {symbols : Symbols} {i i' : LuaInterface} {report : Bool}

def Field.named : Field → Bool
  | .luaOpen500 | .luaLoad510 | .luaPushstring520 | .luaPushlstring520 | .luaRawget530
  | .luaSethook530 | .luaGettable530 | .luaGetglobal530 | .luaRawgeti530 |
      .luaTointegerx530
  | .luaPcallk530 => false
  | _ => true

def Sourced (symbols : Symbols) (i : LuaInterface) : Prop :=
  ∀ f, i.dllCdecl f ≠ 0 → f.named = true ∧ symbols f = some (i.dllCdecl f)

structure Extends (i i' : LuaInterface) : Prop where
  version : i'.version = i.version
  kept : ∀ f, i.dllCdecl f ≠ 0 → i'.dllCdecl f = i.dllCdecl f

theorem Extends.trans {i₁ i₂ i₃ : LuaInterface} (h : Extends i₁ i₂) (h' : Extends i₂ i₃) :
    Extends i₁ i₃ where
  version := h'.version.trans h.version
  kept f hf := (h'.kept f (h.kept f hf ▸ hf)).trans (h.kept f hf)

def Step.field : Step → Field
  | .required f => f
  | .optional f => f
  | .without _ f => f

def Step.Achieved (symbols : Symbols) (i : LuaInterface) : Step → Prop
  | .required f => i.dllCdecl f ≠ 0
  | .optional f => i.dllCdecl f = (symbols f).getD 0
  | .without g f => i.dllCdecl g ≠ 0 ∨ i.dllCdecl f ≠ 0

theorem achieved_extends {s : Step} (h : s.Achieved symbols i) (hs' : Sourced symbols i')
    (he : Extends i i') :
    s.Achieved symbols i' := by
  have hkept (f : Field) (hf : i.dllCdecl f ≠ 0) : i'.dllCdecl f ≠ 0 := he.kept f hf ▸ hf
  cases s with
  | required f => exact hkept f h
  | without g f => exact h.imp (hkept g) (hkept f)
  | optional f =>
    rw [Step.Achieved] at h ⊢
    by_cases hzero : i'.dllCdecl f = 0
    · by_contra hne
      refine hkept f (fun hi => hne ?_) hzero
      rw [hzero, ← h, hi]
    · rw [(hs' f hzero).2, Option.getD_some]

theorem getFunctionOptional_spec (h : Sourced symbols i) {f : Field} (hf : f.named = true) :
    Sourced symbols (getFunctionOptional symbols f i) ∧
        Extends i (getFunctionOptional symbols f i) ∧
      (getFunctionOptional symbols f i).dllCdecl f = (symbols f).getD 0 := by
  rw [getFunctionOptional]
  cases hsymbol : symbols f with
  | none =>
    refine ⟨h,⟨rfl,fun _ _ => rfl⟩,?_⟩
    by_contra hne
    have hsome := (h f hne).2
    rw [hsymbol] at hsome
    cases hsome
  | some address =>
    refine ⟨fun g hg => ?_,⟨rfl,fun g hg => ?_⟩,set_self⟩
    · by_cases hgf : g = f
      · subst hgf
        exact ⟨hf,by rw [hsymbol, set_self]⟩
      · rw [set_other hgf] at hg ⊢
        exact h g hg
    · by_cases hgf : g = f
      · subst hgf
        have hsome := (h g hg).2
        rw [hsymbol] at hsome
        injection hsome with haddress
        rw [set_self, haddress]
      · exact set_other hgf

theorem getFunction_spec (h : Sourced symbols i) {f : Field} (hf : f.named = true)
    (hget : getFunction symbols report f i = .ok i') :
    Sourced symbols i' ∧ Extends i i' ∧ i'.dllCdecl f ≠ 0 := by
  obtain ⟨hsourced,hextends,-⟩ := getFunctionOptional_spec h hf
  rw [getFunction] at hget
  split at hget
  · cases hget
  · next hne =>
    cases hget
    exact ⟨hsourced,hextends,hne⟩

theorem step_spec (h : Sourced symbols i) {s : Step} (hs : s.field.named = true)
    (hrun : s.run symbols report i = .ok i') :
    Sourced symbols i' ∧ Extends i i' ∧ s.Achieved symbols i' := by
  cases s with
  | required f => exact getFunction_spec h hs hrun
  | optional f =>
    cases hrun
    exact getFunctionOptional_spec h hs
  | without g f =>
    rw [Step.run] at hrun
    split at hrun
    · obtain ⟨hsourced,hextends,hne⟩ := getFunction_spec h hs hrun
      exact ⟨hsourced,hextends,.inr hne⟩
    · next hne =>
      cases hrun
      exact ⟨h,⟨rfl,fun _ _ => rfl⟩,.inl hne⟩

theorem steps_spec (steps : List Step) (hsteps : ∀ s ∈ steps, s.field.named = true)
    (h : Sourced symbols i)
    (hrun : steps.foldlM (Step.run symbols report) i = .ok i') :
    Sourced symbols i' ∧ Extends i i' ∧ ∀ s ∈ steps, s.Achieved symbols i' := by
  induction steps generalizing i with
  | nil =>
    cases hrun
    exact ⟨h,⟨rfl,fun _ _ => rfl⟩,fun _ hs => absurd hs List.not_mem_nil⟩
  | cons s steps ih =>
    obtain ⟨hs,hsteps⟩ := List.forall_mem_cons.mp hsteps
    rw [List.foldlM_cons] at hrun
    cases hstep : s.run symbols report i with
    | error e =>
      rw [hstep] at hrun
      cases hrun
    | ok j =>
      rw [hstep] at hrun
      obtain ⟨hsourced,hextends,hachieved⟩ := step_spec h hs hstep
      obtain ⟨hsourced',hextends',hall⟩ := ih hsteps hsourced hrun
      exact ⟨hsourced',hextends.trans hextends',
        List.forall_mem_cons.mpr ⟨achieved_extends hachieved hsourced' hextends',hall⟩⟩

theorem functions_named (version : ℕ) : ∀ s ∈ functions version, s.field.named = true := by
  unfold functions
  split <;> split <;> split <;> decide

end Sources

section Renaming

variable {i : LuaInterface}

def components (moves : List (Field × Field)) : List Field := moves.flatMap (fun p => [p.1,p.2])

theorem unmoved (moves : List (Field × Field)) {g : Field} (hg : g ∉ components moves) :
    (moves.foldl LuaInterface.move i).dllCdecl g = i.dllCdecl g := by
  induction moves generalizing i with
  | nil => rfl
  | cons p moves ih =>
    simp only [components, List.flatMap_cons, List.mem_append, List.mem_cons, List.not_mem_nil,
      or_false, not_or] at hg
    obtain ⟨⟨hfrom,hto⟩,hrest⟩ := hg
    rw [List.foldl_cons, ih hrest, LuaInterface.move, set_other hfrom, set_other hto]

theorem moved (moves : List (Field × Field)) (hmoves : (components moves).Nodup) {p : Field × Field}
    (hp : p ∈ moves) : (moves.foldl LuaInterface.move i).dllCdecl p.2 = i.dllCdecl p.1 ∧
      (moves.foldl LuaInterface.move i).dllCdecl p.1 = 0 := by
  induction moves generalizing i with
  | nil => cases hp
  | cons q moves ih =>
    rw [components, List.flatMap_cons, List.nodup_append'] at hmoves
    obtain ⟨hq,hrest,hdisjoint⟩ := hmoves
    have hqne : q.1 ≠ q.2 := by simpa using hq
    rw [List.foldl_cons]
    rcases List.mem_cons.mp hp with rfl | hp
    · have hfrom : p.1 ∉ components moves := fun h => hdisjoint (List.mem_cons_self) h
      have hto : p.2 ∉ components moves :=
        fun h => hdisjoint (List.mem_cons_of_mem _ List.mem_cons_self) h
      rw [unmoved moves hfrom, unmoved moves hto, LuaInterface.move]
      exact ⟨by rw [set_other hqne.symm, set_self],set_self⟩
    · have hmem : p.1 ∈ components moves ∧ p.2 ∈ components moves :=
        ⟨List.mem_flatMap.mpr ⟨p,hp,List.mem_cons_self⟩,
          List.mem_flatMap.mpr ⟨p,hp,List.mem_cons_of_mem _ List.mem_cons_self⟩⟩
      obtain ⟨hto,hfrom⟩ := ih (i := i.move q) hrest hp
      refine ⟨hto.trans ?_,hfrom⟩
      have hne1 : p.1 ≠ q.1 := fun h => hdisjoint (h ▸ List.mem_cons_self) hmem.1
      have hne2 : p.1 ≠ q.2 :=
        fun h => hdisjoint (h ▸ List.mem_cons_of_mem _ List.mem_cons_self) hmem.1
      rw [LuaInterface.move, set_other hne1, set_other hne2]

theorem moves_version (moves : List (Field × Field)) (i : LuaInterface) :
    (moves.foldl LuaInterface.move i).version = i.version := by
  induction moves generalizing i with
  | nil => rfl
  | cons p moves ih => rw [List.foldl_cons, ih, move_version]

/-- Where a pointer that is not zero comes from. -/
theorem moved_from (moves : List (Field × Field)) (hmoves : (components moves).Nodup) {g : Field}
    (hg : (moves.foldl LuaInterface.move i).dllCdecl g ≠ 0) :
    ∃ f, i.dllCdecl f = (moves.foldl LuaInterface.move i).dllCdecl g ∧
      ((f,g) ∈ moves ∨ f = g ∧ g ∉ components moves) := by
  by_cases hmem : g ∈ components moves
  · obtain ⟨⟨f,f'⟩,hp,hcomponent⟩ := List.mem_flatMap.mp hmem
    obtain ⟨hto,hfrom⟩ := moved (i := i) moves hmoves hp
    rcases List.mem_pair.mp hcomponent with rfl | rfl
    · exact absurd hfrom hg
    · exact ⟨f,hto.symm,.inl hp⟩
  · exact ⟨g,(unmoved moves hmem).symm,.inr ⟨rfl,hmem⟩⟩

theorem moved_injective (moves : List (Field × Field)) (hfirst : (moves.map Prod.fst).Nodup)
    {f g g' : Field}
    (h : (f,g) ∈ moves ∨ f = g ∧ g ∉ components moves)
    (h' : (f,g') ∈ moves ∨ f = g' ∧ g' ∉ components moves) :
    g = g' := by
  have hcomponent {g : Field} (hp : (f,g) ∈ moves) : f ∈ components moves :=
    List.mem_flatMap.mpr ⟨(f,g),hp,List.mem_cons_self⟩
  rcases h with h | ⟨rfl,h⟩ <;> rcases h' with h' | ⟨rfl,h'⟩
  · exact congrArg Prod.snd (List.inj_on_of_nodup_map hfirst h h' rfl)
  · exact absurd (hcomponent h) h'
  · exact absurd (hcomponent h') h
  · rfl

def moves (version : ℕ) : List (Field × Field) :=
  (if version = 510 then [(.luaLoad,.luaLoad510)] else []) ++
    ((if version ≥ 520 then renamed520 else []) ++ if version ≥ 530 then renamed530 else [])

theorem rename_eq (hv : i.version ≠ 500) :
    rename i = (moves i.version).foldl LuaInterface.move i := by
  have hload : (if i.version = 510 then i.move (.luaLoad,.luaLoad510) else i) =
      (if i.version = 510 then [(.luaLoad,.luaLoad510)] else []).foldl LuaInterface.move i := by
    split <;> rfl
  rw [rename, if_neg hv, hload, moves, List.foldl_append, List.foldl_append]
  generalize hj :
      (if i.version = 510 then [(.luaLoad,.luaLoad510)] else []).foldl LuaInterface.move i = j
  have hversion : j.version = i.version := hj ▸ moves_version _ i
  rw [hversion]
  split
  · rw [moves_version, hversion]
    split <;> rfl
  · rw [hversion]
    split <;> rfl

theorem moves_nodup (version : ℕ) : (components (moves version)).Nodup := by
  unfold moves
  split <;> split <;> split <;> decide

theorem moves_first (version : ℕ) : ((moves version).map Prod.fst).Nodup := by
  unfold moves
  split <;> split <;> split <;> decide

theorem moves_intercepted (version : ℕ) :
    ∀ p ∈ moves version, p.2 ∈ intercepted → p.1 ∈ intercepted := by
  unfold moves
  split <;> split <;> split <;> decide

end Renaming

section Hooks

variable {t : Trampolines} {r : LuaInterface × List Address}

def Spent (t : Trampolines) (hooked : List Address) (a : Address) : Prop :=
  t.hookable a = true → a ∈ hooked

/-- A pointer that is none stays none; else it gets the original, or none if there is none left. -/
theorem hook_cases (t : Trampolines) (r : LuaInterface × List Address) (f : Field) :
    (r.1.dllCdecl f = 0 ∧ hookFunction t r f = r) ∨
    (r.1.dllCdecl f ≠ 0 ∧ ¬ Spent t r.2 (r.1.dllCdecl f) ∧ hookFunction t r f =
      (r.1.set f (t.original (r.1.dllCdecl f)),r.1.dllCdecl f::r.2)) ∨
    (r.1.dllCdecl f ≠ 0 ∧ Spent t r.2 (r.1.dllCdecl f) ∧
      hookFunction t r f = (r.1.set f 0,r.2)) := by
  by_cases hzero : r.1.dllCdecl f = 0
  · exact .inl ⟨hzero,if_pos hzero⟩
  · have hhook : hookFunction t r f =
        if t.hookable (r.1.dllCdecl f) && !r.2.contains (r.1.dllCdecl f) then
          (r.1.set f (t.original (r.1.dllCdecl f)),r.1.dllCdecl f::r.2)
        else (r.1.set f 0,r.2) := if_neg hzero
    by_cases hspent : Spent t r.2 (r.1.dllCdecl f)
    · refine .inr (.inr ⟨hzero,hspent,hhook.trans (if_neg fun h => ?_)⟩)
      simp only [Bool.and_eq_true, Bool.not_eq_true', List.contains_eq_mem,
        decide_eq_false_iff_not] at h
      exact h.2 (hspent h.1)
    · obtain ⟨hhookable,hmem⟩ := Classical.not_imp.mp hspent
      refine .inr (.inl ⟨hzero,hspent,hhook.trans (if_pos ?_)⟩)
      simp [hhookable, hmem]

theorem hook_version (f : Field) : (hookFunction t r f).1.version = r.1.version := by
  rcases hook_cases t r f with ⟨-,h⟩ | ⟨-,-,h⟩ | ⟨-,-,h⟩
  · rw [h]
  · rw [h, set_version]
  · rw [h, set_version]

theorem hooks_version (fs : List Field) : (fs.foldl (hookFunction t) r).1.version =
    r.1.version := by
  induction fs generalizing r with
  | nil => rfl
  | cons f fs ih => rw [List.foldl_cons, ih, hook_version]

theorem hook_other {f g : Field} (h : g ≠ f) :
    (hookFunction t r f).1.dllCdecl g = r.1.dllCdecl g := by
  rcases hook_cases t r f with ⟨-,hr⟩ | ⟨-,-,hr⟩ | ⟨-,-,hr⟩
  · rw [hr]
  · rw [hr, set_other h]
  · rw [hr, set_other h]

theorem hooks_other (fs : List Field) {g : Field} (h : g ∉ fs) :
    (fs.foldl (hookFunction t) r).1.dllCdecl g = r.1.dllCdecl g := by
  induction fs generalizing r with
  | nil => rfl
  | cons f fs ih =>
    obtain ⟨hne,hrest⟩ := List.ne_and_not_mem_of_not_mem_cons h
    rw [List.foldl_cons, ih hrest, hook_other hne]

theorem hook_spends (f : Field) {a : Address} (h : Spent t r.2 a ∨ r.1.dllCdecl f = a ∧ a ≠ 0) :
    Spent t (hookFunction t r f).2 a := by
  rcases hook_cases t r f with ⟨hzero,hr⟩ | ⟨hzero,-,hr⟩ | ⟨hzero,hspent,hr⟩
  · rw [hr]
    exact h.resolve_right fun ⟨ha,hne⟩ => hne (ha ▸ hzero)
  · rw [hr]
    rcases h with h | ⟨rfl,-⟩
    · exact fun ha => List.mem_cons_of_mem _ (h ha)
    · exact fun _ => List.mem_cons_self
  · rw [hr]
    rcases h with h | ⟨rfl,-⟩
    · exact h
    · exact hspent

theorem hooks_spend (fs : List Field) {a : Address} (h : Spent t r.2 a) :
    Spent t (fs.foldl (hookFunction t) r).2 a := by
  induction fs generalizing r with
  | nil => exact h
  | cons f fs ih => exact ih (hook_spends f (.inl h))

theorem hook_spent {f : Field} (h : Spent t r.2 (r.1.dllCdecl f)) :
    (hookFunction t r f).1.dllCdecl f = 0 := by
  rcases hook_cases t r f with ⟨hzero,hr⟩ | ⟨-,hnot,-⟩ | ⟨-,-,hr⟩
  · rw [hr, hzero]
  · exact absurd h hnot
  · rw [hr, set_self]

theorem hooks_zero (fs : List Field) {g : Field} (h : r.1.dllCdecl g = 0) :
    (fs.foldl (hookFunction t) r).1.dllCdecl g = 0 := by
  induction fs generalizing r with
  | nil => exact h
  | cons f fs ih =>
    apply ih
    by_cases hgf : g = f
    · subst hgf
      rw [hookFunction, if_pos h, h]
    · rw [hook_other hgf, h]

/-- Of two pointers to one function the second gets no original. -/
theorem hooks_twice (before between after : List Field) {f g : Field}
    (hfs : (before ++ f::(between ++ g::after)).Nodup) (h : r.1.dllCdecl f = r.1.dllCdecl g) :
    ((before ++ f::(between ++ g::after)).foldl (hookFunction t) r).1.dllCdecl g = 0 := by
  simp only [List.nodup_append', List.nodup_cons, List.mem_append, List.mem_cons, not_or,
    List.disjoint_cons_right, List.disjoint_append_right] at hfs
  obtain ⟨-,⟨⟨-,hfg,-⟩,-,⟨hgafter,-⟩,hgbetween,-⟩,hfbefore,-,hgbefore,-⟩ := hfs
  rw [List.foldl_append, List.foldl_cons, List.foldl_append, List.foldl_cons, hooks_other _ hgafter]
  have hf : (before.foldl (hookFunction t) r).1.dllCdecl f = r.1.dllCdecl f :=
    hooks_other _ hfbefore
  have hg : (before.foldl (hookFunction t) r).1.dllCdecl g = r.1.dllCdecl g :=
    hooks_other _ hgbefore
  generalize before.foldl (hookFunction t) r = r' at hf hg ⊢
  have hkept : (between.foldl (hookFunction t) (hookFunction t r' f)).1.dllCdecl g =
      r.1.dllCdecl g := by
    rw [hooks_other _ hgbetween, hook_other (Ne.symm hfg), hg]
  by_cases hzero : r.1.dllCdecl g = 0
  · rw [hookFunction, if_pos (hkept.trans hzero), hkept, hzero]
  · apply hook_spent
    rw [hkept]
    exact hooks_spend _ (hook_spends _ (.inr ⟨hf.trans h,hzero⟩))

/-- Functions of different addresses keep an original each. -/
theorem hooks_keep (fs : List Field) (hfs : fs.Nodup)
    (hfresh : ∀ f ∈ fs, r.1.dllCdecl f ≠ 0 → t.hookable (r.1.dllCdecl f) = true ∧
        r.1.dllCdecl f ∉ r.2)
    (hne : ∀ f ∈ fs, ∀ g ∈ fs, f ≠ g → r.1.dllCdecl f ≠ 0 → r.1.dllCdecl f ≠ r.1.dllCdecl g)
    (g : Field) :
    (fs.foldl (hookFunction t) r).1.dllCdecl g = 0 ↔ r.1.dllCdecl g = 0 := by
  induction fs generalizing r with
  | nil => exact Iff.rfl
  | cons f fs ih =>
    obtain ⟨hf,hfs⟩ := List.nodup_cons.mp hfs
    have hother {f' : Field} (hf' : f' ∈ fs) :
        (hookFunction t r f).1.dllCdecl f' = r.1.dllCdecl f' :=
      hook_other (fun heq => hf (heq ▸ hf'))
    have hhooked : ∀ f' ∈ fs, r.1.dllCdecl f' ≠ 0 → r.1.dllCdecl f' ∉ (hookFunction t r f).2 := by
      intro f' hf' hzero
      have hmem := (hfresh f' (List.mem_cons_of_mem _ hf') hzero).2
      have hdiffer : f' ≠ f := fun heq => hf (heq ▸ hf')
      rcases hook_cases t r f with ⟨-,hr⟩ | ⟨-,-,hr⟩ | ⟨-,-,hr⟩
      · rw [hr]
        exact hmem
      · rw [hr]
        exact List.not_mem_cons_of_ne_of_not_mem
          (hne f' (List.mem_cons_of_mem _ hf') f List.mem_cons_self hdiffer hzero) hmem
      · rw [hr]
        exact hmem
    rw [List.foldl_cons, ih hfs]
    · by_cases hgf : g = f
      · subst hgf
        rcases hook_cases t r g with ⟨-,hr⟩ | ⟨hzero,-,hr⟩ | ⟨hzero,hspent,-⟩
        · rw [hr]
        · rw [hr, set_self]
          exact iff_of_false (t.original_ne _) hzero
        · obtain ⟨hhookable,hmem⟩ := hfresh g List.mem_cons_self hzero
          exact absurd (hspent hhookable) hmem
      · rw [hook_other hgf]
    · intro f' hf' hzero
      rw [hother hf'] at hzero ⊢
      exact ⟨(hfresh f' (List.mem_cons_of_mem _ hf') hzero).1,hhooked f' hf' hzero⟩
    · intro f' hf' g' hg' hdiffer hzero
      rw [hother hf', hother hg'] at *
      exact hne f' (List.mem_cons_of_mem _ hf') g' (List.mem_cons_of_mem _ hg') hdiffer hzero

end Hooks

section Loading

variable {symbols : Symbols} {i : LuaInterface}

def LuaInterface.Has (i : LuaInterface) (f : Field) : Prop := i.dllCdecl f ≠ 0

def plain : List Field :=
  [.luaSettop,.luaGettop,.luaPushvalue,.luaType,.luaTypename,.luaPushnil,.luaRawset,
    .luaGetinfo,.luaPushlightuserdata,.luaCheckstack,.luaNext,.luaGetstack,.luaSettable,
    .luaPushcclosure,.luaRawequal,.luaSetmetatable,.luaGetmetatable,.luaGetupvalue,
    .luaSetupvalue,.luaGetlocal,.luaSetlocal,.luaTouserdata,.luaTocfunction,.luaToboolean,
    .luaGethookmask,.luaPushnumber]

/-- Each call has a function to go to. -/
structure Complete (i : LuaInterface) : Prop where
  plain : ∀ f ∈ plain, i.Has f
  pushthread : i.Has .luaPushthread
  sethook : i.Has .luaSethook530 ∨ i.Has .luaSethook
  gettable : i.Has (if i.version ≥ 530 then .luaGettable530 else .luaGettable)
  rawget : i.Has .luaRawget530 ∨ i.Has .luaRawget
  rawgeti : i.Has .luaRawgeti530 ∨ i.Has .luaRawgeti
  pushstring : i.Has .luaPushstring520 ∨ i.Has .luaPushstring
  remove : i.Has .luaRotate ∨ i.Has .luaRemove
  insert : i.Has .luaRotate ∨ i.Has .luaInsert
  tolstring : i.Has .luaTostring ∨ i.Has .luaTolstring
  tonumber : i.Has .luaTonumberx ∨ i.Has .luaTonumber
  load : i.Has .luaLoad510 ∨ i.Has .luaLoad
  call : i.Has .luaCallk ∨ i.Has .luaCall
  pcall : (i.Has .luaPcallk530 ∨ i.Has .luaPcallk) ∨ i.Has .luaPcall
  newtable : i.Has .luaNewtable ∨ i.Has .luaCreatetable
  newuserdata : i.Has .luaNewuserdatauv ∨ i.Has .luaNewuserdata

def renamed : List (Field × Field) := (.luaLoad,.luaLoad510)::(renamed520 ++ renamed530)

theorem moves_renamed (version : ℕ) : ∀ f ∈ components (moves version), f ∈ components renamed := by
  unfold moves
  split <;> split <;> split <;> decide

theorem moves_or (version : ℕ) :
    ∀ p ∈ renamed, p ∈ moves version ∨ p.1 ∉ components (moves version) := by
  unfold moves
  split <;> split <;> split <;> decide

theorem plain_stays : ∀ f ∈ plain, f ∉ components renamed := by decide

theorem plain_required : ∀ f ∈ plain, Step.required f ∈ stackFunctions ++ valueFunctions := by
  decide

theorem functions_mem (version : ℕ) {s : Step} (hs : s ∈ stackFunctions ++ valueFunctions) :
    s ∈ functions version := by
  unfold functions
  rcases List.mem_append.mp hs with h | h
  · exact List.mem_append_left _ (List.mem_append_left _ (List.mem_append_left _
      (List.mem_append_left _ (List.mem_append_left _ h))))
  · exact List.mem_append_left _ (List.mem_append_left _ (List.mem_append_left _
      (List.mem_append_right _ h)))

theorem identify_spec (h : identify symbols = some i) :
    i.version ∈ [401,500,510,520,530,540,550] ∧ ∀ f, i.dllCdecl f = 0 := by
  unfold identify at h
  dsimp only at h
  repeat' split at h
  all_goals first | (cases h; exact ⟨by decide,fun _ => rfl⟩) | cases h

theorem rename_500 (hv : i.version = 500) :
    rename i = (i.set .luaOpen500 (i.dllCdecl .luaLoad)).set .luaOpen 0 := by
  rw [rename, if_pos hv]
  simp [hv]

theorem rename_version : (rename i).version = i.version := by
  by_cases hv : i.version = 500
  · rw [rename_500 hv, set_version, set_version]
  · rw [rename_eq hv, moves_version]

theorem rename_unmoved (hv : i.version ≠ 500) {f : Field} (hf : f ∉ components renamed) :
    (rename i).dllCdecl f = i.dllCdecl f := by
  rw [rename_eq hv]
  exact unmoved _ (fun hmem => hf (moves_renamed _ f hmem))

theorem rename_stays (hv : i.version ≠ 500) {f : Field} (hf : f ∉ components (moves i.version))
    (h : i.Has f) :
    (rename i).Has f := by
  rw [LuaInterface.Has, rename_eq hv, unmoved _ hf]
  exact h

theorem rename_moves (hv : i.version ≠ 500) {p : Field × Field} (hp : p ∈ moves i.version)
    (h : i.Has p.1) :
    (rename i).Has p.2 := by
  rw [LuaInterface.Has, rename_eq hv, (moved _ (moves_nodup _) hp).1]
  exact h

theorem rename_or (hv : i.version ≠ 500) {p : Field × Field} (hp : p ∈ renamed) (h : i.Has p.1) :
    (rename i).Has p.2 ∨ (rename i).Has p.1 :=
  (moves_or i.version p hp).imp (fun hmoves => rename_moves hv hmoves h)
      (fun hstays => rename_stays hv hstays h)

theorem moves_late {version : ℕ} (hv : version ≥ 530) {p : Field × Field} (hp : p ∈ renamed530) :
    p ∈ moves version := by
  rw [moves, if_pos hv]
  exact List.mem_append_right _ (List.mem_append_right _ hp)

theorem moves_early {version : ℕ} (hv : ¬ version ≥ 530) :
    ∀ p ∈ renamed530, p.1 ∉ components (moves version) := by
  rw [moves, if_neg hv]
  split <;> split <;> decide

/-- A version from 5.1 on has a function for each call. -/
theorem complete_rename (hv : i.version ≥ 510)
    (ha : ∀ s ∈ functions i.version, s.Achieved symbols i) : Complete (rename i) := by
  have hne : i.version ≠ 500 := by omega
  have hrequired {f : Field} (hf : Step.required f ∈ stackFunctions ++ valueFunctions) : i.Has f :=
    ha _ (functions_mem _ hf)
  have hwithout {g f : Field} (hf : Step.without g f ∈ stackFunctions ++ valueFunctions) :
      i.Has g ∨ i.Has f :=
    ha _ (functions_mem _ hf)
  have hstays {f : Field} (hf : f ∉ components renamed) : i.Has f → (rename i).Has f :=
    rename_stays hne (fun hmem => hf (moves_renamed _ f hmem))
  have hor {f g : Field} (hp : (f,g) ∈ renamed) : i.Has f → (rename i).Has g ∨ (rename i).Has f :=
    rename_or hne hp
  have hrotate {f : Field} (hf : f ∈ [Field.luaRemove,Field.luaInsert])
      (hstay : f ∉ components renamed) : (rename i).Has .luaRotate ∨ (rename i).Has f := by
    by_cases hlate : i.version > 520
    · have hstep : Step.required .luaRotate ∈ functions i.version := by
        rw [functions, if_pos hlate]
        simp
      exact .inl (hstays (by decide) (ha _ hstep))
    · have hstep : Step.required f ∈ functions i.version := by
        rw [functions, if_neg hlate]
        simp only [List.mem_append, List.mem_cons, Step.required.injEq] at hf ⊢
        tauto
      exact .inr (hstays hstay (ha _ hstep))
  have hpushthread : Step.required .luaPushthread ∈ functions i.version := by
    rw [functions, if_pos hv]
    simp
  exact {
    plain := fun f hf => hstays (plain_stays f hf) (hrequired (plain_required f hf))
    pushthread := hstays (by decide) (ha _ hpushthread)
    sethook := hor (by decide) (hrequired (by decide))
    gettable := by
      rw [rename_version]
      by_cases hlate : i.version ≥ 530
      · rw [if_pos hlate]
        have hp : (Field.luaGettable,Field.luaGettable530) ∈ moves i.version :=
          moves_late hlate (by decide)
        exact rename_moves hne hp (hrequired (by decide))
      · rw [if_neg hlate]
        exact rename_stays hne (moves_early hlate (.luaGettable,.luaGettable530) (by decide))
          (hrequired (by decide))
    rawget := hor (by decide) (hrequired (by decide))
    rawgeti := hor (by decide) (hrequired (by decide))
    pushstring := hor (by decide) (hrequired (by decide))
    remove := hrotate (by decide) (by decide)
    insert := hrotate (by decide) (by decide)
    tolstring := (hwithout (by decide)).imp (hstays (by decide)) (hstays (by decide))
    tonumber := (hwithout (by decide)).imp (hstays (by decide)) (hstays (by decide))
    load := hor (by decide) (hrequired (by decide))
    call := (hwithout (by decide)).imp (hstays (by decide)) (hstays (by decide))
    pcall := (hwithout (g := .luaPcallk) (by decide)).imp (hor (by decide)) (hstays (by decide))
    newtable := (hwithout (by decide)).imp (hstays (by decide)) (hstays (by decide))
    newuserdata := by
      by_cases hlate : i.version ≥ 540
      · exact .inl (hstays (by decide)
          (ha (.required .luaNewuserdatauv) (by rw [functions, if_pos hlate]; simp)))
      · exact .inr (hstays (by decide)
          (ha (.required .luaNewuserdata) (by rw [functions, if_neg hlate]; simp))) }

theorem complete_congr {j : LuaInterface} (h : Complete i) (hv : j.version = i.version)
    (hhas : ∀ f, j.Has f ↔ i.Has f) : Complete j := by
  have hgettable := h.gettable
  rw [← hv] at hgettable
  exact {
    plain := fun f hf => (hhas f).mpr (h.plain f hf)
    pushthread := (hhas _).mpr h.pushthread
    sethook := h.sethook.imp (hhas _).mpr (hhas _).mpr
    gettable := (hhas _).mpr hgettable
    rawget := h.rawget.imp (hhas _).mpr (hhas _).mpr
    rawgeti := h.rawgeti.imp (hhas _).mpr (hhas _).mpr
    pushstring := h.pushstring.imp (hhas _).mpr (hhas _).mpr
    remove := h.remove.imp (hhas _).mpr (hhas _).mpr
    insert := h.insert.imp (hhas _).mpr (hhas _).mpr
    tolstring := h.tolstring.imp (hhas _).mpr (hhas _).mpr
    tonumber := h.tonumber.imp (hhas _).mpr (hhas _).mpr
    load := h.load.imp (hhas _).mpr (hhas _).mpr
    call := h.call.imp (hhas _).mpr (hhas _).mpr
    pcall := h.pcall.imp (Or.imp (hhas _).mpr (hhas _).mpr) (hhas _).mpr
    newtable := h.newtable.imp (hhas _).mpr (hhas _).mpr
    newuserdata := h.newuserdata.imp (hhas _).mpr (hhas _).mpr }

variable {t : Trampolines} {hooked : List Address} {r : LuaInterface × List Address}

/-- The functions to intercept are at addresses of their own, and MinHook takes them. -/
structure Hookable (t : Trampolines) (hooked : List Address) (symbols : Symbols) : Prop where
  hookable : ∀ f ∈ intercepted, ∀ a, a ≠ 0 → symbols f = some a → t.hookable a = true ∧ a ∉ hooked
  distinct : ∀ f ∈ intercepted, ∀ g ∈ intercepted, ∀ a, a ≠ 0 → symbols f = some a →
      symbols g = some a → f = g

theorem load_found (h : loadLuaFunctions t hooked symbols = .ok r) :
    ∃ i, Sourced symbols i ∧ i.version ∈ [401,500,510,520,530,540,550] ∧
      (∀ s ∈ functions i.version, s.Achieved symbols i) ∧
      r = intercepted.foldl (hookFunction t) ({rename i with handler := t.instanceFunction},
          hooked) := by
  rw [loadLuaFunctions] at h
  cases hi : identify symbols with
  | none =>
    rw [hi] at h
    cases h
  | some i =>
    obtain ⟨hversion,hzero⟩ := identify_spec hi
    have hsourced : Sourced symbols i := fun f hf => absurd (hzero f) hf
    rw [hi] at h
    dsimp only at h
    cases hopen : opening.foldlM (Step.run symbols false) i with
    | error e =>
      rw [hopen] at h
      cases h
    | ok j =>
      rw [hopen] at h
      obtain ⟨hsourcedj,hextends,-⟩ := steps_spec opening (by decide) hsourced hopen
      rw [← hextends.version] at hversion
      change ((functions j.version).foldlM (Step.run symbols true) j).bind _ = _ at h
      cases hfunctions : (functions j.version).foldlM (Step.run symbols true) j with
      | error e =>
        rw [hfunctions] at h
        cases h
      | ok k =>
        rw [hfunctions] at h
        obtain ⟨hsourcedk,hextendsk,hachieved⟩ :=
          steps_spec _ (functions_named _) hsourcedj hfunctions
        rw [← hextendsk.version] at hversion hachieved
        injection h with h
        exact ⟨k,hsourcedk,hversion,hachieved,h.symm⟩

/-- Hooking keeps what there is. -/
theorem hooked_has (hs : Sourced symbols i) (hv : i.version ≠ 500) (hh : Hookable t hooked symbols)
    (f : Field) :
    (intercepted.foldl (hookFunction t) ({rename i with handler := t.instanceFunction},
        hooked)).1.Has f ↔
      (rename i).Has f := by
  have hsource {f : Field} (hf : f ∈ intercepted) (hne : (rename i).dllCdecl f ≠ 0) :
      ∃ f₀ ∈ intercepted, symbols f₀ = some ((rename i).dllCdecl f) ∧
        ((f₀,f) ∈ moves i.version ∨ f₀ = f ∧ f ∉ components (moves i.version)) := by
    rw [rename_eq hv] at hne ⊢
    obtain ⟨f₀,haddress,hfrom⟩ := moved_from _ (moves_nodup _) hne
    refine ⟨f₀,?_,?_,hfrom⟩
    · rcases hfrom with hmoves | ⟨rfl,-⟩
      · exact moves_intercepted _ _ hmoves hf
      · exact hf
    · rw [← haddress] at hne ⊢
      exact (hs f₀ hne).2
  refine not_congr (hooks_keep intercepted (by decide) ?_ ?_ f)
  · intro f hf hne
    obtain ⟨f₀,hf₀,hsymbol,-⟩ := hsource hf hne
    exact hh.hookable f₀ hf₀ _ hne hsymbol
  · intro f hf g hg hdiffer hne heq
    have hneg : (rename i).dllCdecl g ≠ 0 := fun hzero => hne (heq.trans hzero)
    obtain ⟨f₀,hf₀,hsymbol,hfrom⟩ := hsource hf hne
    obtain ⟨g₀,hg₀,hsymbol',hfrom'⟩ := hsource hg hneg
    have hsame : symbols g₀ = some ((rename i).dllCdecl f) :=
      hsymbol'.trans (congrArg some heq.symm)
    obtain rfl := hh.distinct f₀ hf₀ g₀ hg₀ _ hne hsymbol hsame
    exact hdiffer (moved_injective _ (moves_first _) hfrom hfrom')

theorem intercepted_split :
    intercepted = [.luaOpen] ++ .luaOpen500::
      ([.luaNewstate,.luaClose,.luaNewthread,.luaPcall,.luaPcallk,.luaPcallk530,.luaCall,
        .luaCallk] ++ .luaLoad::
        [.luaLoad510,.luaLNewmetatable,.luaSethook,.luaSethook530,.luaLLoadbuffer,
          .luaLLoadfile,.luaLLoadfilex,.luaLNewstate]) := rfl

/-- In Lua 5.0 `lua_load` is hooked for `lua_open` first, and has no original then. -/
theorem hooked_500 (hs : Sourced symbols i) (hv : i.version = 500) :
    ¬ (intercepted.foldl (hookFunction t) ({rename i with handler := t.instanceFunction},
        hooked)).1.Has .luaLoad ∧
      ¬ (intercepted.foldl (hookFunction t)
        ({rename i with handler := t.instanceFunction},hooked)).1.Has .luaLoad510 := by
  have hrename := rename_500 hv
  have hload : (rename i).dllCdecl .luaLoad = i.dllCdecl .luaLoad := by
    rw [hrename, set_other (by decide), set_other (by decide)]
  have hopen : (rename i).dllCdecl .luaOpen500 = i.dllCdecl .luaLoad := by
    rw [hrename, set_other (by decide), set_self]
  have hzero : (rename i).dllCdecl .luaLoad510 = 0 := by
    rw [hrename, set_other (by decide), set_other (by decide)]
    by_contra hne
    exact absurd (hs _ hne).1 (by decide)
  have hfirst (r : LuaInterface × List Address) (hr : r.1.dllCdecl = (rename i).dllCdecl) :
      (intercepted.foldl (hookFunction t) r).1.dllCdecl .luaLoad = 0 := by
    rw [intercepted_split]
    apply hooks_twice _ _ _ (by decide)
    rw [hr, hopen, hload]
  have hsecond (r : LuaInterface × List Address) (hr : r.1.dllCdecl = (rename i).dllCdecl) :
      (intercepted.foldl (hookFunction t) r).1.dllCdecl .luaLoad510 = 0 :=
    hooks_zero intercepted (by rw [hr, hzero])
  exact ⟨not_not.mpr (hfirst _ rfl),not_not.mpr (hsecond _ rfl)⟩

structure Taken (symbols : Symbols) (i : LuaInterface) : Prop where
  late : i.version ≥ 510 → Complete i
  optional : i.version ≥ 510 → ∀ f, Step.optional f ∈ stackFunctions ++ valueFunctions →
    f ∉ components renamed → (i.Has f ↔ (symbols f).getD 0 ≠ 0)
  early : ¬ i.version ≥ 510 → i.version = 401 ∨ i.version = 500 ∧ ¬ i.Has .luaLoad ∧
      ¬ i.Has .luaLoad510

theorem load_taken (h : loadLuaFunctions t hooked symbols = .ok r)
    (hh : Hookable t hooked symbols) :
    Taken symbols r.1 := by
  obtain ⟨i,hsourced,hversions,hachieved,hr⟩ := load_found h
  have hversion : r.1.version = i.version := by
    rw [hr, hooks_version]
    exact rename_version
  have hhas (hne : i.version ≠ 500) (f : Field) : r.1.Has f ↔ (rename i).Has f := by
    rw [hr]
    exact hooked_has hsourced hne hh f
  exact {
    late := fun hv => by
      rw [hversion] at hv
      exact complete_congr (complete_rename hv hachieved) (hversion.trans rename_version.symm)
        (hhas (by omega))
    optional := fun hv f hf hstays => by
      have hne : i.version ≠ 500 := by omega
      have hi : i.dllCdecl f = (symbols f).getD 0 := hachieved _ (functions_mem _ hf)
      rw [hhas hne, LuaInterface.Has, rename_unmoved hne hstays, hi]
    early := fun hv => by
      rw [hversion] at hv ⊢
      by_cases h500 : i.version = 500
      · rw [hr]
        exact .inr ⟨h500,hooked_500 hsourced h500⟩
      · left
        simp only [List.mem_cons, List.not_mem_nil, or_false] at hversions
        omega }

end Loading

end Vecoda.LoadedFunctions

import Vecoda.HandleBreak
import Vecoda.HookCallback

/-!
# The frames shown and the frames inspected

`SendBreakEvent` merges the native stack with the script stack, and the adapter
numbers the frames it receives. `Evaluate` takes such a number, with the levels
skipped at the break added, as a level of the Lua stack. Both stacks are walked
from the outermost entry, so that they are listed here in that order. An entry
of the merged stack keeps the position of its activation in `scriptStack`.
-/

set_option autoImplicit false

namespace Vecoda.UnifiedStack
open MessagePipe LuaText Backend EventStream HandleBreak

def maxStackSize : ℕ := 100

def maxEntryNameLength : ℕ := 256

inductive Entry where
  | native (name : Bytes)
  | script (scriptPos : ℕ) (ar : LuaDebug)

def isC (ar : LuaDebug) : Bool := ar.what = some (text "C")

def isHidden (name : Bytes) : Bool :=
  (text "luaD_").isPrefixOf name || (text "luaV_").isPrefixOf name || (text "lua_").isPrefixOf name

def nativeWalk : List Bytes → List Entry × List Bytes
  | [] => ([],[])
  | name::natives =>
    if name = text "lua_pcall" then ([],natives)
    else
      let (entries,rest) := nativeWalk natives
      (if isHidden name then entries else .native name :: entries,rest)

/-- Up the script stack to a transition into C, with room for so many entries. -/
def scriptWalk : ℕ → List LuaDebug → List Entry × List LuaDebug
  | _, [] => ([],[])
  | 0, script => ([],script)
  | room+1, ar::script =>
    if isC ar then ([],script)
    else
      let (entries,rest) := scriptWalk room script
      (.script script.length ar :: entries,rest)

theorem scriptWalk_length (room : ℕ) (script : List LuaDebug) :
    (scriptWalk room script).2.length ≤ script.length ∧
      (0 < room → script ≠ [] → (scriptWalk room script).2.length < script.length) := by
  induction script generalizing room with
  | nil => exact ⟨by cases room <;> exact le_refl _,fun _ h => absurd rfl h⟩
  | cons ar script ih =>
    cases room with
    | zero => exact ⟨le_refl _,fun h => absurd h (lt_irrefl 0)⟩
    | succ room =>
      have h : (scriptWalk (room+1) (ar::script)).2.length ≤ script.length := by
        rw [scriptWalk]
        split
        · exact le_refl _
        · exact (ih room).1
      exact ⟨Nat.le_succ_of_le h,fun _ _ => Nat.lt_succ_of_le h⟩

/-- The merged stack from its outermost entry; nothing bounds the native loop,
whose writes past the end are undefined. -/
def unify (room : ℕ) (natives : List Bytes) (script : List LuaDebug) : Option (List Entry) :=
  if _h : room = 0 ∨ script = [] then some []
  else
    let native := nativeWalk natives
    if native.1.length > room then none
    else
      let walked := scriptWalk (room - native.1.length) script
      (unify (room - native.1.length - walked.1.length) native.2 walked.2).map
        (fun entries => native.1 ++ (walked.1 ++ entries))
termination_by room + script.length
decreasing_by
  obtain ⟨hroom,hscript⟩ := not_or.mp _h
  have hlen := scriptWalk_length (room - (nativeWalk natives).1.length) script
  by_cases hfull : room - (nativeWalk natives).1.length = 0
  · have := hlen.1
    omega
  · have := hlen.2 (Nat.pos_of_ne_zero hfull) hscript
    omega

def getUnifiedStack (nativeStack : List Bytes) (scriptStack : List LuaDebug) : Option (List Entry) :=
  unify maxStackSize nativeStack.reverse scriptStack.reverse

def sendBreakEvent (nativeStack : List Bytes) (callStack : List LuaDebug) (stackTop : ℕ) :
    Option (List Entry) :=
  (getUnifiedStack (nativeStack.take 100) ((callStack.drop stackTop).take maxStackSize)).map
    List.reverse

section Fields

def cstring (name : Bytes) : CString :=
  ⟨cstr name,fun h => by simpa using List.mem_takeWhile_imp h⟩

def functionName (ar : LuaDebug) : Bytes :=
  match ar.name with
  | some (c::cs) => c::cs
  | _ => ar.what.getD (text "<Unknown>")

variable (b : DebugBackend)

def Entry.frame : Entry → Frame
  | native name => ⟨unsigned (-1),0,cstring (name.take maxEntryNameLength)⟩
  | script _ ar => ⟨unsigned (HookCallback.scriptIndex b ar),unsigned (ar.currentline-1),
      cstring ((functionName ar).take maxEntryNameLength)⟩

def Known (ar : LuaDebug) : Prop :=
  (unsigned (HookCallback.scriptIndex b ar)).toNat ≠ 0xffffffff

instance (ar : LuaDebug) : Decidable (Known b ar) := inferInstanceAs (Decidable (_ ≠ _))

end Fields

section Walk

variable {room : ℕ} {natives : List Bytes} {script : List LuaDebug} {ar : LuaDebug}

def resume (room : ℕ) (natives : List Bytes) (script : List LuaDebug) : Option (List Entry) :=
  let walked := scriptWalk room script
  (unify (room - walked.1.length) natives walked.2).map (fun entries => walked.1 ++ entries)

theorem unify_empty (h : room = 0 ∨ script = []) : unify room natives script = some [] := by
  rw [unify, dif_pos h]

theorem unify_native (hroom : room ≠ 0) (hscript : script ≠ []) :
    unify room natives script =
      if (nativeWalk natives).1.length > room then none
      else (resume (room - (nativeWalk natives).1.length) (nativeWalk natives).2 script).map
        (fun entries => (nativeWalk natives).1 ++ entries) := by
  rw [unify, dif_neg (not_or.mpr ⟨hroom,hscript⟩)]
  simp only [resume, Option.map_map, Function.comp_def]

theorem resume_nil : resume room natives [] = some [] := by
  cases room <;> simp [resume, scriptWalk, unify_empty]

theorem resume_zero : resume 0 natives script = some [] := by
  cases script <;> simp [resume, scriptWalk, unify_empty]

theorem resume_c (h : isC ar = true) :
    resume (room+1) natives (ar::script) = unify (room+1) natives script := by
  simp [resume, scriptWalk, h]

theorem resume_lua (h : isC ar = false) :
    resume (room+1) natives (ar::script) =
      (resume room natives script).map (fun entries => .script script.length ar :: entries) := by
  simp only [resume, scriptWalk, h, Bool.false_eq_true, if_false, List.length_cons,
    Nat.add_sub_add_right, Option.map_map, Function.comp_def, List.cons_append]

end Walk

/-- By how much the entries sent above a point outnumber the activations there:
the native functions shown, less the C functions and what did not fit. -/
def surplus : List LuaDebug → ℕ → List Bytes → ℤ
  | [], _, _ => 0
  | _::script, 0, _ => -(script.length+1)
  | ar::script, room+1, natives =>
    if isC ar then
      if script = [] then -1
      else
        let native := nativeWalk natives
        native.1.length - 1 + surplus script (room+1 - native.1.length) native.2
    else surplus script room natives

def Decodes (nvm position level : ℕ) : Prop :=
  threadIdOf (frameId nvm position) = nvm ∧ stackLevelOf (frameId nvm position) = level

/-- The native loops have room, and every frame listed is at its level. -/
def Aligned (b : DebugBackend) (nvm : ℕ) : List LuaDebug → ℕ → List Bytes → Prop
  | [], _, _ => True
  | _::_, 0, _ => True
  | ar::script, room+1, natives =>
    if isC ar then
      let native := nativeWalk natives
      script = [] ∨ (native.1.length ≤ room+1 ∧
        Aligned b nvm script (room+1 - native.1.length) native.2)
    else (Known b ar → Decodes nvm (script.length + surplus script room natives).toNat script.length) ∧
      Aligned b nvm script room natives

def Exact (b : DebugBackend) (nvm : ℕ) : List Entry → Prop
  | [] => True
  | .native _ :: entries => Exact b nvm entries
  | .script scriptPos ar :: entries =>
    (Known b ar → Decodes nvm entries.length scriptPos) ∧ Exact b nvm entries

theorem resume_length (script : List LuaDebug) (room : ℕ) (natives : List Bytes)
    (entries : List Entry) (h : resume room natives script = some entries) :
    (entries.length : ℤ) = script.length + surplus script room natives := by
  induction script generalizing room natives entries with
  | nil =>
    rw [resume_nil] at h
    cases h
    rfl
  | cons ar script ih =>
    cases room with
    | zero =>
      rw [resume_zero] at h
      cases h
      simp [surplus]
    | succ room =>
      cases hc : isC ar with
      | true =>
        rw [resume_c hc] at h
        by_cases hscript : script = []
        · subst hscript
          rw [unify_empty (.inr rfl)] at h
          cases h
          simp [surplus, hc]
        · rw [unify_native (Nat.add_one_ne_zero room) hscript] at h
          split at h
          · cases h
          · obtain ⟨rest,hrest,rfl⟩ := Option.map_eq_some_iff.mp h
            have hlen := ih _ _ _ hrest
            simp only [surplus, hc, if_true, hscript, if_false, List.length_append, List.length_cons]
            omega
      | false =>
        rw [resume_lua hc] at h
        obtain ⟨rest,hrest,rfl⟩ := Option.map_eq_some_iff.mp h
        have hlen := ih _ _ _ hrest
        simp only [surplus, hc, Bool.false_eq_true, if_false, List.length_cons]
        omega

theorem exact_natives (b : DebugBackend) (nvm : ℕ) (natives : List Bytes) (entries : List Entry) :
    Exact b nvm ((nativeWalk natives).1 ++ entries) ↔ Exact b nvm entries := by
  induction natives with
  | nil => rfl
  | cons name natives ih =>
    rw [nativeWalk]
    split
    · rfl
    · dsimp only
      split
      · exact ih
      · exact ih

theorem exact_unify_iff {b : DebugBackend} {nvm room : ℕ} {natives : List Bytes}
    {script : List LuaDebug} (hroom : room ≠ 0)
    (ih : ∀ room natives, (∃ entries, resume room natives script = some entries ∧ Exact b nvm entries) ↔
      Aligned b nvm script room natives) :
    (∃ entries, unify room natives script = some entries ∧ Exact b nvm entries) ↔
      (script = [] ∨ ((nativeWalk natives).1.length ≤ room ∧
        Aligned b nvm script (room - (nativeWalk natives).1.length) (nativeWalk natives).2)) := by
  by_cases hscript : script = []
  · exact iff_of_true ⟨[],unify_empty (.inr hscript),trivial⟩ (.inl hscript)
  · rw [unify_native hroom hscript, or_iff_right hscript, ← ih]
    split
    · rename_i hfull
      exact iff_of_false (by rintro ⟨_,h,-⟩; cases h) (fun h => absurd h.1 (not_le.mpr hfull))
    · rename_i hfull
      rw [and_iff_right (not_lt.mp hfull)]
      constructor
      · rintro ⟨_,h,hexact⟩
        obtain ⟨rest,hrest,rfl⟩ := Option.map_eq_some_iff.mp h
        exact ⟨rest,hrest,(exact_natives b nvm natives rest).mp hexact⟩
      · rintro ⟨rest,hrest,hexact⟩
        exact ⟨_,Option.map_eq_some_iff.mpr ⟨rest,hrest,rfl⟩,
          (exact_natives b nvm natives rest).mpr hexact⟩

theorem exact_resume_iff (b : DebugBackend) (nvm : ℕ) (script : List LuaDebug) (room : ℕ)
    (natives : List Bytes) :
    (∃ entries, resume room natives script = some entries ∧ Exact b nvm entries) ↔
      Aligned b nvm script room natives := by
  induction script generalizing room natives with
  | nil => exact iff_of_true ⟨[],resume_nil,trivial⟩ trivial
  | cons ar script ih =>
    cases room with
    | zero => exact iff_of_true ⟨[],resume_zero,trivial⟩ trivial
    | succ room =>
      cases hc : isC ar with
      | true =>
        rw [resume_c hc, exact_unify_iff (Nat.add_one_ne_zero room) ih, Aligned, if_pos hc]
      | false =>
        rw [resume_lua hc, Aligned, if_neg (by simp [hc]), ← ih]
        constructor
        · rintro ⟨_,h,hexact⟩
          obtain ⟨rest,hrest,rfl⟩ := Option.map_eq_some_iff.mp h
          have hlen := resume_length script room natives rest hrest
          refine ⟨fun hknown => ?_,rest,hrest,hexact.2⟩
          rw [← hlen, Int.toNat_natCast]
          exact hexact.1 hknown
        · rintro ⟨hdecodes,rest,hrest,hexact⟩
          have hlen := resume_length script room natives rest hrest
          rw [← hlen, Int.toNat_natCast] at hdecodes
          exact ⟨_,Option.map_eq_some_iff.mpr ⟨rest,hrest,rfl⟩,hdecodes,hexact⟩

theorem nativeWalk_native (natives : List Bytes) (scriptPos : ℕ) (ar : LuaDebug) :
    Entry.script scriptPos ar ∉ (nativeWalk natives).1 := by
  induction natives with
  | nil => simp [nativeWalk]
  | cons name natives ih =>
    rw [nativeWalk]
    split
    · simp
    · dsimp only
      split
      · exact ih
      · simpa using ih

def Tagged (script : List LuaDebug) (entries : List Entry) : Prop :=
  ∀ scriptPos ar, Entry.script scriptPos ar ∈ entries → script.reverse[scriptPos]? = some ar

theorem tagged_cons {script : List LuaDebug} {entries : List Entry} (top : LuaDebug)
    (h : Tagged script entries) : Tagged (top::script) entries := by
  intro scriptPos ar hmem
  have hi := h scriptPos ar hmem
  obtain ⟨hlt,-⟩ := List.getElem?_eq_some_iff.mp hi
  rw [List.reverse_cons, List.getElem?_append_left hlt, hi]

theorem unify_tagged {script : List LuaDebug} {room : ℕ} {natives : List Bytes}
    {entries : List Entry} (h : unify room natives script = some entries)
    (hresume : ∀ room natives entries, resume room natives script = some entries →
      Tagged script entries) : Tagged script entries := by
  by_cases hempty : room = 0 ∨ script = []
  · rw [unify_empty hempty] at h
    cases h
    exact nofun
  · rw [unify_native (not_or.mp hempty).1 (not_or.mp hempty).2] at h
    split at h
    · cases h
    · obtain ⟨rest,hrest,rfl⟩ := Option.map_eq_some_iff.mp h
      intro scriptPos ar hmem
      rcases List.mem_append.mp hmem with hmem | hmem
      · exact absurd hmem (nativeWalk_native natives scriptPos ar)
      · exact hresume _ _ _ hrest scriptPos ar hmem

theorem resume_tagged (script : List LuaDebug) (room : ℕ) (natives : List Bytes)
    (entries : List Entry) (h : resume room natives script = some entries) :
    Tagged script entries := by
  induction script generalizing room natives entries with
  | nil =>
    rw [resume_nil] at h
    cases h
    exact nofun
  | cons top script ih =>
    cases room with
    | zero =>
      rw [resume_zero] at h
      cases h
      exact nofun
    | succ room =>
      cases hc : isC top with
      | true =>
        rw [resume_c hc] at h
        exact tagged_cons top (unify_tagged h ih)
      | false =>
        rw [resume_lua hc] at h
        obtain ⟨rest,hrest,rfl⟩ := Option.map_eq_some_iff.mp h
        intro scriptPos ar hmem
        rcases List.mem_cons.mp hmem with he | hmem
        · cases he
          rw [List.reverse_cons, ← List.length_reverse, List.getElem?_concat_length]
        · exact tagged_cons top (ih _ _ _ hrest) scriptPos ar hmem

theorem sent_level {nativeStack : List Bytes} {callStack : List LuaDebug} {stackTop : ℕ}
    {sent : List Entry} (h : sendBreakEvent nativeStack callStack stackTop = some sent)
    {scriptPos : ℕ} {ar : LuaDebug} (hmem : Entry.script scriptPos ar ∈ sent) :
    callStack[scriptPos + stackTop]? = some ar := by
  obtain ⟨entries,hentries,rfl⟩ := Option.map_eq_some_iff.mp h
  have htag := unify_tagged hentries (resume_tagged _) scriptPos ar (List.mem_reverse.mp hmem)
  rw [List.reverse_reverse, List.getElem?_take] at htag
  split at htag
  · rwa [List.getElem?_drop, Nat.add_comm] at htag
  · cases htag

/-- The frame that the number of a listed frame leads to is the frame itself. -/
def Inspected (b : DebugBackend) (files : ℕ → Option File) (nvm : ℕ) (callStack : List LuaDebug)
    (stackTop : ℕ) (sent : List Entry) : Prop :=
  ∀ i scriptPos ar, sent[i]? = some (.script scriptPos ar) → Known b ar →
    let id := (stackFrame files nvm i (Entry.frame b (.script scriptPos ar))).id
    threadIdOf id = nvm ∧ stackLevelOf id + stackTop = scriptPos + stackTop ∧
      callStack[scriptPos + stackTop]? = some ar

theorem exact_iff (b : DebugBackend) (nvm : ℕ) (entries : List Entry) :
    Exact b nvm entries ↔ ∀ i scriptPos ar, entries.reverse[i]? = some (.script scriptPos ar) →
      Known b ar → Decodes nvm i scriptPos := by
  induction entries with
  | nil => simp [Exact]
  | cons e entries ih =>
    have hsplit : (∀ i scriptPos ar, (e::entries).reverse[i]? = some (.script scriptPos ar) →
        Known b ar → Decodes nvm i scriptPos) ↔
        (∀ scriptPos ar, e = .script scriptPos ar → Known b ar →
          Decodes nvm entries.length scriptPos) ∧ Exact b nvm entries := by
      rw [ih]
      constructor
      · intro h
        refine ⟨fun scriptPos ar he => h _ scriptPos ar ?_,fun i scriptPos ar hi => h i scriptPos ar ?_⟩
        · rw [List.reverse_cons, ← List.length_reverse, List.getElem?_concat_length, he]
        · obtain ⟨hlt,-⟩ := List.getElem?_eq_some_iff.mp hi
          rw [List.reverse_cons, List.getElem?_append_left hlt, hi]
      · rintro ⟨hlast,hrest⟩ i scriptPos ar hi hknown
        rw [List.reverse_cons, List.getElem?_append] at hi
        split at hi
        · exact hrest i scriptPos ar hi hknown
        · rename_i hge
          rw [List.length_reverse] at hge hi
          obtain ⟨hzero,he⟩ : i - entries.length = 0 ∧ e = .script scriptPos ar := by
            simpa [List.getElem?_singleton] using hi
          have hlen : i = entries.length := by omega
          rw [hlen]
          exact hlast scriptPos ar he hknown
    rw [hsplit]
    cases e with
    | native name => simp [Exact]
    | script scriptPos ar => simp [Exact]

theorem inspected_exact {b : DebugBackend} {nativeStack : List Bytes} {callStack : List LuaDebug}
    {stackTop : ℕ} (files : ℕ → Option File) (nvm : ℕ) {entries : List Entry}
    (h : sendBreakEvent nativeStack callStack stackTop = some entries.reverse) :
    Inspected b files nvm callStack stackTop entries.reverse ↔ Exact b nvm entries := by
  rw [exact_iff]
  refine forall_congr' (fun i => forall_congr' (fun scriptPos => forall_congr' (fun ar =>
    forall₂_congr (fun hi _ => ?_))))
  have hlevel := sent_level h (List.mem_of_getElem? hi)
  simp only [stackFrame, hlevel, and_true, Nat.add_right_cancel_iff]
  rfl

def StacksAligned (b : DebugBackend) (nvm : ℕ) (nativeStack : List Bytes) (callStack : List LuaDebug)
    (stackTop : ℕ) : Prop :=
  let native := nativeWalk (nativeStack.take 100).reverse
  let script := ((callStack.drop stackTop).take maxStackSize).reverse
  script = [] ∨ (native.1.length ≤ maxStackSize ∧
    Aligned b nvm script (maxStackSize - native.1.length) native.2)

/-- Every listed frame is inspected at its own level exactly when above each of
them the native functions shown make up for the activations left out, and its
number survives the frame id. -/
theorem inspected_iff (b : DebugBackend) (files : ℕ → Option File) (nvm : ℕ)
    (nativeStack : List Bytes) (callStack : List LuaDebug) (stackTop : ℕ) :
    (∃ sent, sendBreakEvent nativeStack callStack stackTop = some sent ∧
      Inspected b files nvm callStack stackTop sent) ↔
      StacksAligned b nvm nativeStack callStack stackTop := by
  rw [StacksAligned, ← exact_unify_iff (by decide) (exact_resume_iff b nvm _)]
  constructor
  · rintro ⟨_,h,hinspected⟩
    obtain ⟨entries,hentries,rfl⟩ := Option.map_eq_some_iff.mp h
    exact ⟨entries,hentries,(inspected_exact files nvm h).mp hinspected⟩
  · rintro ⟨entries,hentries,hexact⟩
    have h : sendBreakEvent nativeStack callStack stackTop = some entries.reverse :=
      Option.map_eq_some_iff.mpr ⟨entries,hentries,rfl⟩
    exact ⟨_,h,(inspected_exact files nvm h).mpr hexact⟩

def luaFunction (what : String) (line : ℤ) : LuaDebug :=
  ⟨none,some (text what),text "@a.lua",line,1,9⟩

def loaded : DebugBackend := {DebugBackend.initial with nameToScript := [(text "@a.lua",0)]}

def sorting : List LuaDebug := [luaFunction "Lua" 4,luaFunction "C" (-1),luaFunction "main" 9]

def sortingNatives : List Bytes :=
  ["lua_call","sort_comp","auxsort","sort","luaV_execute","lua_pcall","main"].map text

theorem sorting_misaligned :
    ¬ ∃ sent, sendBreakEvent sortingNatives sorting 0 = some sent ∧
      Inspected loaded (fun _ => none) 16 sorting 0 sent := by
  rintro ⟨_,h,hinspected⟩
  obtain ⟨entries,hentries,rfl⟩ := Option.map_eq_some_iff.mp h
  have hexact := (inspected_exact (fun _ => none) 16 h).mp hinspected
  rcases (exact_unify_iff (by decide) (exact_resume_iff loaded 16 _)).mp ⟨entries,hentries,hexact⟩
    with hempty | ⟨-,haligned⟩
  · cases hempty
  · exact absurd (haligned.1 (by decide)).2 (by decide)

end Vecoda.UnifiedStack

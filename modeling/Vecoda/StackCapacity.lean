import Vecoda.UnifiedStack

/-!
# The room of the merged stack

`GetUnifiedStack` fills an array of a hundred entries in turns: the native
functions up to a transition into Lua, then the script frames up to one into C.
Only the second loop looks at the bound. What fits is told by the lengths of the
turns, which are those of the two stacks alone.
-/

set_option autoImplicit false

namespace Vecoda.StackCapacity
open MessagePipe LuaText Backend UnifiedStack

section Turns

def scriptRuns : List LuaDebug → List (List LuaDebug)
  | [] => []
  | ar::script =>
    if isC ar then [] :: scriptRuns script
    else (ar :: (scriptRuns script).headD []) :: (scriptRuns script).tail

def shownNatives (natives : List Bytes) : ℕ → List Entry
  | 0 => (nativeWalk natives).1
  | k+1 => shownNatives (nativeWalk natives).2 k

def filled (natives : List Bytes) (runs : List (List LuaDebug)) : ℕ → ℕ
  | 0 => 0
  | k+1 => (nativeWalk natives).1.length + (runs.headD []).length +
      filled (nativeWalk natives).2 runs.tail k

/-- Wherever a turn begins with room left, the room is enough for its native functions. -/
def NativesFit (room : ℕ) (natives : List Bytes) (runs : List (List LuaDebug)) : Prop :=
  ∀ k < runs.length, filled natives runs k < room →
    filled natives runs k + (shownNatives natives k).length ≤ room

/-- Every turn with a script frame is over before the room is. -/
def ScriptsFit (room : ℕ) (natives : List Bytes) (runs : List (List LuaDebug)) : Prop :=
  ∀ k < runs.length, runs[k]? ≠ some [] → filled natives runs (k+1) ≤ room

def scriptFrame : Entry → Option LuaDebug
  | .native _ => none
  | .script _ ar => some ar

def luaFrames (script : List LuaDebug) : List LuaDebug := script.filter (fun ar => !isC ar)

end Turns

section Loop

variable {room : ℕ} {natives : List Bytes} {script : List LuaDebug}

def runEntries : List LuaDebug → List Entry
  | [] => []
  | ar::script => if isC ar then [] else .script script.length ar :: runEntries script

def afterRun : List LuaDebug → List LuaDebug
  | [] => []
  | ar::script => if isC ar then script else afterRun script

theorem scriptRuns_ne_nil (ar : LuaDebug) (script : List LuaDebug) : scriptRuns (ar::script) ≠ [] := by
  rw [scriptRuns]
  split <;> exact List.cons_ne_nil _ _

theorem tail_scriptRuns : (scriptRuns script).tail = scriptRuns (afterRun script) := by
  induction script with
  | nil => rfl
  | cons ar script ih =>
    rw [scriptRuns, afterRun]
    split
    · rfl
    · exact ih

theorem length_runEntries : (runEntries script).length = ((scriptRuns script).headD []).length := by
  induction script with
  | nil => rfl
  | cons ar script ih =>
    rw [scriptRuns, runEntries]
    split
    · rfl
    · exact congrArg (· + 1) ih

theorem luaFrames_split (script : List LuaDebug) :
    luaFrames script = (runEntries script).filterMap scriptFrame ++ luaFrames (afterRun script) := by
  induction script with
  | nil => rfl
  | cons ar script ih =>
    rw [luaFrames, runEntries, afterRun]
    cases hc : isC ar with
    | true => simp [hc, luaFrames]
    | false => simpa [hc, luaFrames, scriptFrame] using ih

theorem length_frames_runEntries (script : List LuaDebug) :
    ((runEntries script).filterMap scriptFrame).length = (runEntries script).length := by
  induction script with
  | nil => rfl
  | cons ar script ih =>
    rw [runEntries]
    split
    · rfl
    · simpa [scriptFrame] using ih

theorem frames_take (m : ℕ) : ((runEntries script).take m).filterMap scriptFrame =
    ((runEntries script).filterMap scriptFrame).take m := by
  induction script generalizing m with
  | nil => simp [runEntries]
  | cons ar script ih =>
    rw [runEntries]
    split
    · simp
    · cases m with
      | zero => rfl
      | succ m => simpa [scriptFrame] using ih m

theorem frames_nativeWalk (natives : List Bytes) :
    (nativeWalk natives).1.filterMap scriptFrame = [] := by
  refine List.filterMap_eq_nil_iff.mpr (fun e he => ?_)
  cases e with
  | native name => rfl
  | script scriptPos ar => exact absurd he (nativeWalk_native natives scriptPos ar)

/-- The inner loop over the script stack takes the first run as far as there is room. -/
theorem resume_run : resume room natives script =
    (unify (room - (runEntries script).length) natives (afterRun script)).map
      (fun entries => (runEntries script).take room ++ entries) := by
  induction script generalizing room with
  | nil =>
    rw [resume_nil, afterRun, unify_empty (.inr rfl)]
    simp [runEntries]
  | cons ar script ih =>
    cases room with
    | zero =>
      rw [resume_zero, Nat.zero_sub, unify_empty (.inl rfl)]
      rfl
    | succ room =>
      cases hc : isC ar with
      | true =>
        rw [resume_c hc, runEntries, if_pos hc, afterRun, if_pos hc]
        simp
      | false =>
        have hn : ¬ isC ar = true := by simp [hc]
        rw [resume_lua hc, ih, runEntries, if_neg hn, afterRun, if_neg hn]
        simp [Function.comp_def]

/-- One turn of the outer loop. -/
theorem unify_turn (hroom : room ≠ 0) (hscript : script ≠ [])
    (hfits : (nativeWalk natives).1.length ≤ room) :
    unify room natives script =
      (unify (room - ((nativeWalk natives).1.length + (runEntries script).length)) (nativeWalk natives).2
        (afterRun script)).map (fun entries => (nativeWalk natives).1 ++
          ((runEntries script).take (room - (nativeWalk natives).1.length) ++ entries)) := by
  rw [unify_native hroom hscript, if_neg (not_lt.mpr hfits), resume_run, Option.map_map, Nat.sub_sub]
  rfl

theorem unify_overflow (hroom : room ≠ 0) (hscript : script ≠ [])
    (hfull : room < (nativeWalk natives).1.length) : unify room natives script = none := by
  rw [unify_native hroom hscript, if_pos hfull]

end Loop

section Fitting

variable {room : ℕ} {natives : List Bytes} {runs : List (List LuaDebug)} {run : List LuaDebug}

theorem nativesFit_zero : NativesFit 0 natives runs := fun _ _ h => absurd h (Nat.not_lt_zero _)

theorem nativesFit_cons (hroom : room ≠ 0) : NativesFit room natives (run::runs) ↔
    (nativeWalk natives).1.length ≤ room ∧
      NativesFit (room - ((nativeWalk natives).1.length + run.length)) (nativeWalk natives).2 runs := by
  constructor
  · intro h
    refine ⟨by simpa [filled, shownNatives] using h 0 (Nat.zero_lt_succ _) (Nat.pos_of_ne_zero hroom),
      fun k hk hlt => ?_⟩
    have hk' := h (k+1) (Nat.succ_lt_succ hk)
    simp only [filled, shownNatives, List.headD_cons, List.tail_cons] at hk'
    omega
  · rintro ⟨hfits,h⟩ k hk hlt
    cases k with
    | zero => simpa [filled, shownNatives] using hfits
    | succ k =>
      have hk' := h k (Nat.lt_of_succ_lt_succ hk)
      simp only [filled, shownNatives, List.headD_cons, List.tail_cons] at hlt ⊢
      omega

theorem scriptsFit_cons : ScriptsFit room natives (run::runs) ↔
    (run ≠ [] → (nativeWalk natives).1.length + run.length ≤ room) ∧
      ScriptsFit (room - ((nativeWalk natives).1.length + run.length)) (nativeWalk natives).2 runs := by
  have hpos (natives : List Bytes) (runs : List (List LuaDebug)) (k : ℕ) (hk : k < runs.length)
      (hne : runs[k]? ≠ some []) : 0 < filled natives runs (k+1) := by
    induction k generalizing natives runs with
    | zero =>
      cases runs with
      | nil => exact absurd hk (Nat.not_lt_zero _)
      | cons run runs =>
        have hrun : 0 < run.length := List.length_pos_iff.mpr (fun h => hne (by simp [h]))
        simp only [filled, List.headD_cons]
        omega
    | succ k ih =>
      cases runs with
      | nil => exact absurd hk (Nat.not_lt_zero _)
      | cons run runs =>
        have h := ih (nativeWalk natives).2 runs (Nat.lt_of_succ_lt_succ hk) (by simpa using hne)
        rw [filled]
        exact Nat.add_pos_right _ h
  constructor
  · intro h
    refine ⟨fun hrun => by simpa [filled] using h 0 (Nat.zero_lt_succ _) (by simpa using hrun),
      fun k hk hne => ?_⟩
    have hk' := h (k+1) (Nat.succ_lt_succ hk) (by simpa using hne)
    rw [filled, List.headD_cons, List.tail_cons] at hk'
    omega
  · rintro ⟨hrun,h⟩ k hk hne
    cases k with
    | zero => simpa [filled] using hrun (by simpa using hne)
    | succ k =>
      have hk' := h k (Nat.lt_of_succ_lt_succ hk) (by simpa using hne)
      have h0 := hpos (nativeWalk natives).2 runs k (Nat.lt_of_succ_lt_succ hk) (by simpa using hne)
      rw [filled, List.headD_cons, List.tail_cons]
      omega

end Fitting

section Runs

variable {room : ℕ} {natives : List Bytes} {script : List LuaDebug} {runs : List (List LuaDebug)}

/-- The rule of the outer loop: what holds of a full or finished stack and is
carried over a turn that has room for its native functions. -/
theorem unify_rule {P : ℕ → List Bytes → List LuaDebug → List (List LuaDebug) → Prop}
    (done : ∀ room natives script, room = 0 ∨ script = [] → P room natives script (scriptRuns script))
    (overflow : ∀ room natives script, room ≠ 0 → script ≠ [] → room < (nativeWalk natives).1.length →
      P room natives script (scriptRuns script))
    (turn : ∀ room natives script run runs, room ≠ 0 → script ≠ [] → (nativeWalk natives).1.length ≤ room →
      (runEntries script).length = run.length →
      P (room - ((nativeWalk natives).1.length + run.length)) (nativeWalk natives).2 (afterRun script) runs →
      P room natives script (run::runs)) :
    P room natives script (scriptRuns script) := by
  generalize hruns : scriptRuns script = runs
  induction runs generalizing room natives script with
  | nil =>
    rw [← hruns]
    cases script with
    | nil => exact done _ _ _ (.inr rfl)
    | cons ar script => exact absurd hruns (scriptRuns_ne_nil ar script)
  | cons run runs ih =>
    by_cases hdone : room = 0 ∨ script = []
    · rw [← hruns]
      exact done _ _ _ hdone
    · obtain ⟨hroom,hscript⟩ := not_or.mp hdone
      by_cases hfits : (nativeWalk natives).1.length ≤ room
      · have hrun : (runEntries script).length = run.length := by rw [length_runEntries, hruns]; rfl
        have hrest : scriptRuns (afterRun script) = runs := by rw [← tail_scriptRuns, hruns]; rfl
        exact turn _ _ _ _ _ hroom hscript hfits hrun (ih hrest)
      · rw [← hruns]
        exact overflow _ _ _ hroom hscript (not_le.mp hfits)

theorem scriptsFit_zero : ScriptsFit 0 natives (scriptRuns script) ↔ luaFrames script = [] := by
  generalize hruns : scriptRuns script = runs
  induction runs generalizing natives script with
  | nil =>
    cases script with
    | nil => exact iff_of_true nofun rfl
    | cons ar script => exact absurd hruns (scriptRuns_ne_nil ar script)
  | cons run runs ih =>
    have hrun : (runEntries script).length = run.length := by rw [length_runEntries, hruns]; rfl
    have hrest : scriptRuns (afterRun script) = runs := by rw [← tail_scriptRuns, hruns]; rfl
    have hframes : (run ≠ [] → (nativeWalk natives).1.length + run.length ≤ 0) ↔
        (runEntries script).filterMap scriptFrame = [] := by
      rw [← List.length_eq_zero_iff, length_frames_runEntries, hrun, ne_eq, ← List.length_eq_zero_iff]
      omega
    rw [scriptsFit_cons, Nat.zero_sub, ih hrest, hframes, luaFrames_split script, List.append_eq_nil_iff]

theorem unify_some_iff : (unify room natives script).isSome = true ↔
    NativesFit room natives (scriptRuns script) := by
  refine unify_rule (P := fun room natives script runs =>
    (unify room natives script).isSome = true ↔ NativesFit room natives runs) ?_ ?_ ?_
  · intro room natives script hdone
    rw [unify_empty hdone]
    rcases hdone with rfl | rfl
    · exact iff_of_true rfl nativesFit_zero
    · exact iff_of_true rfl nofun
  · intro room natives script hroom hscript hfull
    obtain ⟨ar,rest,rfl⟩ := List.exists_cons_of_ne_nil hscript
    obtain ⟨run,runs,hruns⟩ := List.exists_cons_of_ne_nil (scriptRuns_ne_nil ar rest)
    rw [unify_overflow hroom hscript hfull, hruns, nativesFit_cons hroom]
    exact iff_of_false Bool.false_ne_true (fun h => absurd h.1 (not_le.mpr hfull))
  · intro room natives script run runs hroom hscript hfits hrun ih
    rw [unify_turn hroom hscript hfits, Option.isSome_map, hrun, ih, nativesFit_cons hroom]
    exact (and_iff_right hfits).symm

theorem unify_length {entries : List Entry} (h : unify room natives script = some entries) :
    entries.length ≤ room := by
  refine unify_rule (P := fun room natives script _ =>
    ∀ entries, unify room natives script = some entries → entries.length ≤ room) ?_ ?_ ?_ entries h
  · intro room natives script hdone entries h
    rw [unify_empty hdone] at h
    cases h
    exact Nat.zero_le _
  · intro room natives script hroom hscript hfull entries h
    rw [unify_overflow hroom hscript hfull] at h
    cases h
  · intro room natives script run runs hroom hscript hfits hrun ih entries h
    rw [unify_turn hroom hscript hfits] at h
    obtain ⟨rest,hrest,rfl⟩ := Option.map_eq_some_iff.mp h
    have hlen := ih rest (hrun ▸ hrest)
    simp only [List.length_append, List.length_take, hrun]
    omega

/-- The script frames that are kept are the outermost ones, and all of them
exactly if every turn with one has room. -/
theorem unify_frames {entries : List Entry} (h : unify room natives script = some entries) :
    entries.filterMap scriptFrame <+: luaFrames script ∧
      (entries.filterMap scriptFrame = luaFrames script ↔ ScriptsFit room natives (scriptRuns script)) := by
  refine unify_rule (P := fun room natives script runs => ∀ entries,
    unify room natives script = some entries → entries.filterMap scriptFrame <+: luaFrames script ∧
      (entries.filterMap scriptFrame = luaFrames script ↔ ScriptsFit room natives runs)) ?_ ?_ ?_ entries h
  · intro room natives script hdone entries h
    rw [unify_empty hdone] at h
    cases h
    refine ⟨List.nil_prefix,?_⟩
    rcases hdone with rfl | rfl
    · rw [scriptsFit_zero, List.filterMap_nil, eq_comm]
    · exact iff_of_true rfl nofun
  · intro room natives script hroom hscript hfull entries h
    rw [unify_overflow hroom hscript hfull] at h
    cases h
  · intro room natives script run runs hroom hscript hfits hrun ih entries h
    rw [unify_turn hroom hscript hfits] at h
    obtain ⟨rest,hrest,rfl⟩ := Option.map_eq_some_iff.mp h
    obtain ⟨hinitial,hall⟩ := ih rest (hrun ▸ hrest)
    have hlen := length_frames_runEntries script
    rw [List.filterMap_append, List.filterMap_append, frames_nativeWalk, List.nil_append, frames_take,
      luaFrames_split script, scriptsFit_cons]
    by_cases hroomy : (nativeWalk natives).1.length + run.length ≤ room
    · rw [List.take_of_length_le (by omega), List.prefix_append_right_inj, List.append_cancel_left_eq, hall]
      exact ⟨hinitial,(and_iff_right (fun _ => hroomy)).symm⟩
    -- the frames of this turn are cut, and no room is left for another
    · rw [hrun, Nat.sub_eq_zero_of_le (by omega), unify_empty (.inl rfl)] at hrest
      cases hrest
      rw [List.filterMap_nil, List.append_nil]
      refine ⟨(List.take_prefix _ _).trans (List.prefix_append _ _),iff_of_false (fun he => ?_) (fun h => ?_)⟩
      · have hcut := congrArg List.length he
        simp only [List.length_take, List.length_append, hlen, hrun] at hcut
        omega
      · exact hroomy (h.1 (fun hnil => by rw [hnil, List.length_nil] at hroomy; omega))

end Runs

/-- No write of `GetUnifiedStack` is past the end, and its size is within the
bound, exactly if the native functions of every turn have room. -/
theorem bounded_iff (nativeStack : List Bytes) (scriptStack : List LuaDebug) :
    (∃ stack, getUnifiedStack nativeStack scriptStack = some stack ∧ stack.length ≤ maxStackSize) ↔
      NativesFit maxStackSize nativeStack.reverse (scriptRuns scriptStack.reverse) := by
  rw [← unify_some_iff, Option.isSome_iff_exists]
  exact ⟨fun ⟨stack,h,_⟩ => ⟨stack,h⟩,fun ⟨stack,h⟩ => ⟨stack,h,unify_length h⟩⟩

def crossedNatives : List Bytes :=
  List.replicate 48 (text "render") ++ text "lua_pcall" :: List.replicate 51 (text "frame")

def crossedScript : List LuaDebug :=
  [luaFunction "Lua" 4,luaFunction "C" (-1),luaFunction "Lua" 9,luaFunction "main" 20]

theorem crossed_not_bounded : crossedNatives.length ≤ 100 ∧ crossedScript.length ≤ 100 ∧
    ¬ ∃ stack, getUnifiedStack crossedNatives crossedScript = some stack ∧ stack.length ≤ maxStackSize := by
  refine ⟨by decide,by decide,?_⟩
  rintro ⟨stack,h,-⟩
  have hfits := unify_some_iff.mp (Option.isSome_iff_exists.mpr ⟨stack,h⟩) 1 (by decide)
  exact absurd (hfits (by decide +kernel)) (by decide +kernel)

section Frames

variable (b : DebugBackend)

/-- An entry as a reader of the array finds it: a name that fills its buffer has no end. -/
structure Held where
  scriptIndex : UInt32
  line : UInt32
  name : Option Bytes
  deriving DecidableEq

def strncpy (name : Bytes) : Option Bytes :=
  if (cstr name).length < maxEntryNameLength then some (cstr name) else none

def held (ar : LuaDebug) : Held :=
  ⟨unsigned (HookCallback.scriptIndex b ar),unsigned (ar.currentline-1),strncpy (functionName ar)⟩

def own (ar : LuaDebug) : Held :=
  ⟨unsigned (HookCallback.scriptIndex b ar),unsigned (ar.currentline-1),some (cstr (functionName ar))⟩

/-- The script entries are the frames of the script stack that are not C
functions, from the outermost to the innermost. -/
def KeepsFrames (nativeStack : List Bytes) (scriptStack : List LuaDebug) : Prop :=
  ∃ stack, getUnifiedStack nativeStack scriptStack = some stack ∧
    (stack.filterMap scriptFrame).map (held b) = (luaFrames scriptStack.reverse).map (own b)

theorem held_own_iff (ar : LuaDebug) :
    held b ar = own b ar ↔ (cstr (functionName ar)).length < maxEntryNameLength := by
  rw [held, own, Held.mk.injEq, strncpy]
  simp

theorem map_held_iff (frames : List LuaDebug) : frames.map (held b) = frames.map (own b) ↔
    ∀ ar ∈ frames, (cstr (functionName ar)).length < maxEntryNameLength := by
  rw [List.map_inj_left]
  exact forall₂_congr (fun ar _ => held_own_iff b ar)

theorem keepsFrames_iff (nativeStack : List Bytes) (scriptStack : List LuaDebug) :
    KeepsFrames b nativeStack scriptStack ↔
      NativesFit maxStackSize nativeStack.reverse (scriptRuns scriptStack.reverse) ∧
      ScriptsFit maxStackSize nativeStack.reverse (scriptRuns scriptStack.reverse) ∧
      ∀ ar ∈ scriptStack, isC ar = false → (cstr (functionName ar)).length < maxEntryNameLength := by
  have hnames : (∀ ar ∈ scriptStack, isC ar = false → (cstr (functionName ar)).length < maxEntryNameLength) ↔
      ∀ ar ∈ luaFrames scriptStack.reverse, (cstr (functionName ar)).length < maxEntryNameLength := by
    simp [luaFrames]
  rw [hnames, ← map_held_iff b, ← unify_some_iff, Option.isSome_iff_exists]
  constructor
  · rintro ⟨stack,h,hframes⟩
    obtain ⟨hinitial,hall⟩ := unify_frames h
    have heq := hinitial.eq_of_length (by simpa using congrArg List.length hframes)
    exact ⟨⟨stack,h⟩,hall.mp heq,heq ▸ hframes⟩
  · rintro ⟨⟨stack,h⟩,hscripts,hheld⟩
    exact ⟨stack,h,by rw [(unify_frames h).2.mpr hscripts, hheld]⟩

end Frames

def deepNatives : List Bytes := List.replicate 99 (text "frame")

def deepScript : List LuaDebug := [luaFunction "Lua" 4,luaFunction "main" 20]

theorem deep_not_kept : deepNatives.length ≤ 100 ∧ deepScript.length ≤ 100 ∧
    ¬ KeepsFrames loaded deepNatives deepScript := by
  refine ⟨by decide,by decide,?_⟩
  rintro ⟨stack,h,hframes⟩
  obtain ⟨hinitial,hall⟩ := unify_frames h
  have heq := hinitial.eq_of_length (by simpa using congrArg List.length hframes)
  exact absurd (hall.mp heq 0 (by decide) (by decide)) (by decide +kernel)

end Vecoda.StackCapacity

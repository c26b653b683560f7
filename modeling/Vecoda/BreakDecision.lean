import Vecoda.HandleBreak

/-!
# When a break is decided

A break is decided once if every command it comes to is answered under its own
number with a result the callback can use. Of the answers only the success flag
and the document matter: a condition needs a first element, a log message a
text for it.
-/

set_option autoImplicit false

namespace Vecoda.BreakDecision
open MessagePipe LuaText XmlSimple Breakpoints EventStream HandleBreak

/-- The next request number survives its 32 bits. -/
def Fits (evaluateId : ℕ) : Prop := evaluateId + 1 < 2^16

abbrev Answers := ℕ → Answer

def later (answers : Answers) : Answers := fun i => answers (i+1)

def Gate (asked : Bool) (P : ℕ → Answers → Prop) (evaluateId : ℕ) (answers : Answers) : Prop :=
  if asked then
    Fits evaluateId ∧ ∃ hit root, (answers 0).decode = .ok (hit,(answers 0).success,root) ∧
      (hit = true → P (answers 0).counters.evaluateId (later answers))
  else P evaluateId answers

def logStats (stats : List (Bytes × Bytes)) (rest : Bytes) : List Bytes :=
  match _h : findKey rest with
  | none => []
  | some (_,key,after) =>
    match stats.lookup (statKey key) with
    | none => logStats stats after
    | some stat => stat :: logStats stats after
termination_by rest.length
decreasing_by all_goals exact findKey_after _h

/-- The answer can stand in a log message, as a text or as a failure. -/
def Loggable (a : Answer) : Prop :=
  ∃ hit root, a.decode = .ok (hit,a.success,root) ∧
    (a.success = true → ∃ replacement, tostring root = .ok (some replacement))

def LogAnswered : List Bytes → ℕ → Answers → Prop
  | [], _, _ => True
  | _::stats, evaluateId, answers => Fits evaluateId ∧ Loggable (answers 0) ∧
      LogAnswered stats (answers 0).counters.evaluateId (later answers)

/-- The end of `exec`: a stop that follows an answer is stored under the thread
that answered. -/
def Ending (nvm id : ℕ) (bp : Breakpoint) (evaluateId : ℕ) (answers : Answers) : Prop :=
  match bp.statLog with
  | none => (bp.condition = none ∧ bp.hitCondition = none) ∨ threadIdOf id = nvm
  | some log => LogAnswered (logStats log.stats log.template) evaluateId answers

def Answered (nvm id : ℕ) (bp : Breakpoint) : ℕ → Answers → Prop :=
  Gate bp.condition.isSome (Gate bp.hitCondition.isSome (Ending nvm id bp))

theorem fits_iff (c : Counters) : reqId c % 2^32 = reqId c ↔ Fits c.evaluateId := by
  unfold reqId Fits
  simp only [Nat.shiftLeft_eq]
  omega

theorem decode_success {a : Answer} {hit success : Bool} {root : Root}
    (h : a.decode = .ok (hit,success,root)) : success = a.success := by
  rw [Answer.decode] at h
  cases hp : parseEvaluateResult (some a.success) (some a.result) with
  | error e =>
    rw [hp] at h
    cases h
  | ok p =>
    rw [hp, Except.bind] at h
    cases hb : (if a.success then toboolean p.2 else .ok false) with
    | error e =>
      rw [hb] at h
      cases h
    | ok b =>
      rw [hb] at h
      cases h
      rfl

section Log

variable {stats : List (Bytes × Bytes)} {rest skipped key after : Bytes}

theorem logStats_none (h : findKey rest = none) : logStats stats rest = [] := by
  rw [logStats]
  split
  · rfl
  · simp_all

theorem logStats_some (h : findKey rest = some (skipped,key,after)) :
    logStats stats rest = (stats.lookup (statKey key)).toList ++ logStats stats after := by
  rw [logStats]
  split
  · simp_all
  · rename_i hfind
    rw [h] at hfind
    cases hfind
    cases stats.lookup (statKey key) <;> rfl

variable {threadId stackLevel : ℕ} {doneCallback : Bytes → Proc} {before : Bytes}

theorem log_none (h : findKey rest = none) :
    processStatLogSequentially stats threadId stackLevel doneCallback before rest =
      doneCallback (before ++ rest) := by
  rw [processStatLogSequentially]
  split
  · rfl
  · simp_all

theorem log_skip (h : findKey rest = some (skipped,key,after))
    (hstat : stats.lookup (statKey key) = none) :
    processStatLogSequentially stats threadId stackLevel doneCallback before rest =
      processStatLogSequentially stats threadId stackLevel doneCallback
        (before ++ skipped ++ statKey key) after := by
  rw [processStatLogSequentially]
  split
  · simp_all
  · rename_i hfind
    rw [h] at hfind
    cases hfind
    simp only [hstat]

theorem log_ask {stat : Bytes} (h : findKey rest = some (skipped,key,after))
    (hstat : stats.lookup (statKey key) = some stat) :
    processStatLogSequentially stats threadId stackLevel doneCallback before rest =
      .evaluate stat threadId stackLevel (fun _ success root =>
        if success then
          match tostring root with
          | .ok (some replacement) => processStatLogSequentially stats threadId stackLevel doneCallback
              (before ++ skipped ++ replacement) after
          | _ => .raise
        else processStatLogSequentially stats threadId stackLevel doneCallback
          (before ++ skipped ++ statKey stat) after) := by
  rw [processStatLogSequentially]
  split
  · simp_all
  · rename_i hfind
    rw [h] at hfind
    cases hfind
    split
    · rename_i hnone
      rw [hstat] at hnone
      cases hnone
    · rename_i hsome
      rw [hstat] at hsome
      cases hsome
      rfl

end Log

section Decided

variable {nvm : ℕ} {stackFrames : List StackFrame}

theorem not_decided_nil : ¬ Decided nvm stackFrames [] := by
  rintro (h | ⟨_,_,h⟩) <;> cases h

theorem decided_emit (e : Effect) (effects : List Effect) (h : isOutcome e = false) :
    Decided nvm stackFrames (e::effects) ↔ Decided nvm stackFrames effects := by
  simp only [Decided, outcomes, List.filter_cons, h, Bool.false_eq_true, if_false]

theorem decided_continue (thread : ℕ) (c : Counters) (answers : Answers) :
    Decided nvm stackFrames (run (.emit (.continue nvm) .done) thread c answers) := .inl rfl

theorem decided_stopped (thread : ℕ) (reason : Option Bytes) (bp : Option ℕ) (c : Counters)
    (answers : Answers) :
    Decided nvm stackFrames (run (.setStacks stackFrames (.emit (.stopped reason nvm bp)
      (.emit .emitStopped .done))) thread c answers) ↔ thread = nvm := by
  constructor
  · rintro (h | ⟨_,_,h⟩)
    · cases h
    · cases h
      rfl
  · rintro rfl
    exact .inr ⟨reason,bp,rfl⟩

/-- A command that is asked leaves the matter to its answer. -/
theorem decided_evaluate (expression : Bytes) (threadId stackLevel thread : ℕ)
    (callback : Bool → Bool → Root → Proc) (c : Counters) (answers : Answers) :
    Decided nvm stackFrames (run (.evaluate expression threadId stackLevel callback) thread c answers) ↔
      Fits c.evaluateId ∧ ∃ hit root, (answers 0).decode = .ok (hit,(answers 0).success,root) ∧
        Decided nvm stackFrames (run (callback hit (answers 0).success root) threadId
          (answers 0).counters (later answers)) := by
  rw [run, decided_emit _ _ rfl, ← fits_iff]
  by_cases hfits : reqId c % 2^32 = reqId c
  · simp only [ne_eq, hfits, not_true, if_false, true_and]
    cases hd : (answers 0).decode with
    | error e => exact iff_of_false not_decided_nil (by rintro ⟨_,_,h,_⟩; cases h)
    | ok p =>
      obtain ⟨hit,success,root⟩ := p
      obtain rfl := decode_success hd
      refine ⟨fun h => ⟨hit,root,rfl,h⟩,?_⟩
      rintro ⟨hit',root',h,hrun⟩
      cases h
      exact hrun
  · rw [if_pos hfits]
    exact iff_of_false not_decided_nil (fun h => hfits h.1)

theorem decided_breakOrContinue (bBreak : Bool) (thread : ℕ) (reason : UInt32)
    (bp : Option Breakpoint) (c : Counters) (answers : Answers) :
    Decided nvm stackFrames (run (breakOrContinue nvm stackFrames reason bp bBreak) thread c answers) ↔
      (bBreak = true → thread = nvm) := by
  cases bBreak with
  | true => simpa [breakOrContinue] using decided_stopped thread _ _ c answers
  | false => simpa [breakOrContinue] using decided_continue thread c answers

theorem decided_log (stats : List (Bytes × Bytes)) (threadId stackLevel : ℕ)
    (doneCallback : Bytes → Proc)
    (hdone : ∀ result thread c answers,
      Decided nvm stackFrames (run (doneCallback result) thread c answers))
    (before rest : Bytes) (thread : ℕ) (c : Counters) (answers : Answers) :
    Decided nvm stackFrames (run (processStatLogSequentially stats threadId stackLevel doneCallback
      before rest) thread c answers) ↔ LogAnswered (logStats stats rest) c.evaluateId answers := by
  induction rest using logStats.induct stats generalizing before thread c answers with
  | case1 rest hfind =>
    rw [log_none hfind, logStats_none hfind]
    exact iff_of_true (hdone _ _ _ _) trivial
  | case2 rest skipped key after hfind hstat ih =>
    rw [log_skip hfind hstat, logStats_some hfind, hstat]
    exact ih _ _ _ _
  | case3 rest skipped key after hfind stat hstat ih =>
    rw [log_ask hfind hstat, logStats_some hfind, hstat, decided_evaluate]
    refine and_congr_right (fun _ => ?_)
    constructor
    · rintro ⟨hit,root,hdecode,hrun⟩
      cases hsuccess : (answers 0).success with
      | false =>
        simp only [hsuccess, Bool.false_eq_true, if_false, ih] at hrun
        exact ⟨⟨hit,root,hdecode,fun h => absurd (hsuccess ▸ h) Bool.false_ne_true⟩,hrun⟩
      | true =>
        simp only [hsuccess, if_true] at hrun
        split at hrun
        · rename_i replacement htext
          exact ⟨⟨hit,root,hdecode,fun _ => ⟨replacement,htext⟩⟩,(ih _ _ _ _).mp hrun⟩
        · exact absurd hrun not_decided_nil
    · rintro ⟨⟨hit,root,hdecode,htext⟩,hlater⟩
      refine ⟨hit,root,hdecode,?_⟩
      cases hsuccess : (answers 0).success with
      | false =>
        simp only [Bool.false_eq_true, if_false, ih]
        exact hlater
      | true =>
        obtain ⟨replacement,htext⟩ := htext hsuccess
        simp only [if_true, htext, ih]
        exact hlater

theorem decided_checkStatLog (bp : Breakpoint) (id : ℕ) (reason : UInt32) (bp' : Option Breakpoint)
    (thread : ℕ) (c : Counters) (answers : Answers)
    (hthread : thread = nvm ↔ (bp.condition = none ∧ bp.hitCondition = none) ∨ threadIdOf id = nvm) :
    Decided nvm stackFrames (run (checkStatLog bp (threadIdOf id) (stackLevelOf id)
      (breakOrContinue nvm stackFrames reason bp')) thread c answers) ↔
        Ending nvm id bp c.evaluateId answers := by
  rw [checkStatLog, Ending]
  cases bp.statLog with
  | none =>
    rw [decided_breakOrContinue, ← hthread]
    exact ⟨fun h => h rfl,fun h _ => h⟩
  | some log =>
    refine decided_log _ _ _ _ (fun result thread c answers => ?_) _ _ _ _ _
    rw [run, decided_emit _ _ rfl]
    exact (decided_breakOrContinue false thread reason bp' c answers).mpr nofun

/-- A condition that is asked for continues, or leaves the matter to the rest. -/
theorem decided_gate (expression : Bytes) (threadId stackLevel thread : ℕ) (reason : UInt32)
    (bp : Option Breakpoint) {rest : Proc} {P : ℕ → Answers → Prop}
    (hrest : ∀ c answers, Decided nvm stackFrames (run rest threadId c answers) ↔ P c.evaluateId answers)
    (c : Counters) (answers : Answers) :
    Decided nvm stackFrames (run (.evaluate expression threadId stackLevel (fun hit _ _ =>
      if !hit then breakOrContinue nvm stackFrames reason bp false else rest)) thread c answers) ↔
        Gate true P c.evaluateId answers := by
  rw [decided_evaluate, Gate, if_pos rfl]
  refine and_congr_right (fun _ => exists_congr (fun hit => exists_congr (fun root =>
    and_congr_right (fun _ => ?_))))
  cases hit with
  | false => exact iff_of_true (decided_continue _ _ _) nofun
  | true =>
    rw [Bool.not_true, if_neg Bool.false_ne_true, hrest]
    exact ⟨fun h _ => h,fun h => h rfl⟩

theorem decided_checkHitCondition (bp : Breakpoint) (id : ℕ) (reason : UInt32)
    (bp' : Option Breakpoint) (thread : ℕ) (c : Counters) (answers : Answers)
    (hthread : thread = nvm ↔ bp.condition = none ∨ threadIdOf id = nvm) :
    Decided nvm stackFrames (run (checkHitCondition bp (threadIdOf id) (stackLevelOf id)
      (breakOrContinue nvm stackFrames reason bp')) thread c answers) ↔
        Gate bp.hitCondition.isSome (Ending nvm id bp) c.evaluateId answers := by
  rw [checkHitCondition, run, Gate]
  cases hhit : bp.hitCondition with
  | none => exact decided_checkStatLog bp id reason bp' thread _ answers (by simpa [hhit] using hthread)
  | some hitCondition =>
    exact decided_gate _ _ _ _ reason bp' (fun c answers =>
      decided_checkStatLog bp id reason bp' _ c answers (by simp [hhit])) _ answers

theorem decided_exec (bp : Breakpoint) (id : ℕ) (reason : UInt32) (bp' : Option Breakpoint)
    (c : Counters) (answers : Answers) :
    Decided nvm stackFrames (run (exec bp id (breakOrContinue nvm stackFrames reason bp')) nvm c
      answers) ↔ Answered nvm id bp c.evaluateId answers := by
  rw [exec, checkCondition, Answered, Gate]
  cases hcondition : bp.condition with
  | none => exact decided_checkHitCondition bp id reason bp' nvm c answers (by simp [hcondition])
  | some condition =>
    exact decided_gate _ _ _ _ reason bp' (fun c answers =>
      decided_checkHitCondition bp id reason bp' _ c answers (by simp [hcondition])) _ answers

end Decided

/-- A break at a breakpoint has a script frame, one at an exception breakpoint
too unless it has no frame at all; and the breakpoint's questions are answered. -/
def Sound (a : Adapter) (nvm : ℕ) (evaluateId : ℕ) (answers : Answers) : StopEvent → Prop
  | .break stack =>
    match listed a.files nvm 0 stack.frames with
    | [] => stack.reason ≠ 1
    | top::_ => ∀ bp, stack.reason = 1 → getBreakpoint a.files top.fileId top.line = some bp →
        Answered nvm top.id bp evaluateId answers
  | .fault kind _ stack => (a.exceptionBreakpoints kind).isSome = true → stack.frames ≠ [] →
      listed a.files nvm 0 stack.frames ≠ []

theorem decided_decideBreak (nvm : ℕ) (stack : BreakStack) (stackFrames : List StackFrame)
    (bp : Option Breakpoint) (c : Counters) (answers : Answers) :
    Decided nvm stackFrames (run (decideBreak nvm stack stackFrames bp) nvm c answers) ↔
      (stack.frames ≠ [] → ∀ b, bp = some b → ∃ top rest, stackFrames = top::rest ∧
        Answered nvm top.id b c.evaluateId answers) := by
  unfold decideBreak
  by_cases hframes : stack.frames = []
  · rw [if_pos hframes]
    exact iff_of_true (decided_continue _ _ _) (fun h => absurd hframes h)
  · rw [if_neg hframes]
    cases bp with
    | none => exact iff_of_true ((decided_breakOrContinue true nvm _ _ _ _).mpr (fun _ => rfl)) nofun
    | some b =>
      cases stackFrames with
      | nil => exact iff_of_false not_decided_nil (by simpa using hframes)
      | cons top rest =>
        rw [decided_exec]
        constructor
        · rintro h - _ ⟨⟩
          exact ⟨top,rest,rfl,h⟩
        · intro h
          obtain ⟨_,_,heq,hanswered⟩ := h hframes b rfl
          cases heq
          exact hanswered

theorem answered_exceptionBreakpoint (nvm id bp evaluateId : ℕ) (answers : Answers) :
    Answered nvm id (exceptionBreakpoint bp) evaluateId answers := .inl ⟨rfl,rfl⟩

theorem listed_frames (a : Adapter) (nvm : ℕ) (frames : List Frame)
    (h : listed a.files nvm 0 frames ≠ []) : frames ≠ [] := by
  rintro rfl
  exact h rfl

/-- Every break, exception or load error is decided exactly once if and only if
it is sound, whatever the answers are. -/
theorem decided_iff (a : Adapter) (nvm : ℕ) (stop : StopEvent) (c : Counters) (answers : Answers) :
    Decided nvm (listed a.files nvm 0 stop.stack.frames) (run (a.handle nvm stop) nvm c answers) ↔
      Sound a nvm c.evaluateId answers stop := by
  cases stop with
  | «break» stack =>
    rw [Adapter.handle, handleBreak, Sound, StopEvent.stack]
    simp only [Option.isNone_none, Bool.not_true, Bool.and_false, Bool.false_eq_true, if_false,
      Bool.true_and]
    by_cases hreason : stack.reason = 1
    · simp only [hreason, decide_true, if_true]
      cases hlisted : listed a.files nvm 0 stack.frames with
      | nil => exact iff_of_false not_decided_nil (fun h => h rfl)
      | cons top rest =>
        have hframes := listed_frames a nvm stack.frames (by simp [hlisted])
        rw [decided_decideBreak]
        simp [hframes]
    · simp only [hreason, decide_false, Bool.false_eq_true, if_false]
      rw [decided_decideBreak]
      cases listed a.files nvm 0 stack.frames <;> simp [hreason]
  | fault kind message stack =>
    rw [Adapter.handle, handleBreak, Sound, StopEvent.stack]
    cases hbp : a.exceptionBreakpoints kind with
    | none =>
      refine iff_of_true ?_ (fun h => absurd h (by simp))
      simp only [Option.map_none, Option.isNone_none, Option.isSome_none, Bool.not_false,
        Bool.and_true, if_true]
      rw [run, decided_emit _ _ rfl]
      exact decided_continue _ _ _
    | some id =>
      simp only [Option.map_some, Option.isNone_some, Bool.false_and, Bool.false_eq_true, if_false]
      rw [decided_decideBreak]
      cases hlisted : listed a.files nvm 0 stack.frames with
      | nil => simp
      | cons top rest => simp [answered_exceptionBreakpoint]

def fileWith (bp : Breakpoint) : Adapter :=
  ⟨fun _ => some ⟨none,text "Memory",[(bp.line,bp)]⟩,fun _ => none⟩

def conditional : Adapter := fileWith ⟨1,5,some (text "f()"),none,none,0⟩

/-- A condition without a value: `Evaluate` succeeds with an empty document. -/
theorem valueless_undecided :
    ¬ Decided 16 (listed (fileWith ⟨1,5,some (text "f()"),none,none,0⟩).files 16 0 (breakAt 1 4).stack.frames)
      (run ((fileWith ⟨1,5,some (text "f()"),none,none,0⟩).handle 16 (breakAt 1 4)) 16 ⟨0,0⟩
        (fun _ => ⟨true,[],⟨1,0⟩⟩)) := by
  rintro (h | ⟨_,_,h⟩) <;> cases h

end Vecoda.BreakDecision

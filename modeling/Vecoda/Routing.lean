import Vecoda.Requests

/-!
# What the handlers route

Here stands once what a request does: it asks for the scopes of a frame, resumes
a thread, begins or ends a session or sends a command, and responds. Only the
stored stacks, the pending callbacks and the commands decide what is sent to
which virtual machine, and what a break and an answer do to them.
-/

set_option autoImplicit false

namespace Vecoda.Routing
open MessagePipe (Bytes)
open EventStream HandleBreak Variables Requests

structure Kept (s s' : State) : Prop where
  debugdata : s'.debugdata = s.debugdata
  stackTrace : s'.stackTrace = s.stackTrace
  evaluateId : s'.evaluateId = s.evaluateId
  pendingRequests : s'.pendingRequests = s.pendingRequests
  commands : s'.commands = s.commands

/-- Two states that differ in responses, and in the flags of the loop, at most. -/
structure Quiet (s t : State) : Prop where
  debugdata : t.debugdata = s.debugdata
  stackTrace : t.stackTrace = s.stackTrace
  «variables» : t.«variables» = s.«variables»
  variableId : t.variableId = s.variableId
  objects : t.objects = s.objects
  evaluateId : t.evaluateId = s.evaluateId
  pendingRequests : t.pendingRequests = s.pendingRequests
  commands : t.commands = s.commands

section Quiet

variable {s t u : State}

theorem quiet_refl : Quiet s s := ⟨rfl,rfl,rfl,rfl,rfl,rfl,rfl,rfl⟩

theorem quiet_trans (h : Quiet s t) (hu : Quiet t u) : Quiet s u :=
  ⟨hu.debugdata.trans h.debugdata,hu.stackTrace.trans h.stackTrace,
    hu.«variables».trans h.«variables»,hu.variableId.trans h.variableId,hu.objects.trans h.objects,
    hu.evaluateId.trans h.evaluateId,hu.pendingRequests.trans h.pendingRequests,
    hu.commands.trans h.commands⟩

theorem quiet_respond (requestSeq : ℕ) (success : Bool) : Quiet s (s.respond requestSeq success) :=
  ⟨rfl,rfl,rfl,rfl,rfl,rfl,rfl,rfl⟩

theorem kept_of_quiet (h : Quiet s t) : Kept s t :=
  ⟨h.debugdata,h.stackTrace,h.evaluateId,h.pendingRequests,h.commands⟩

end Quiet

section Kept

variable {s s' s'' : State}

theorem kept_refl : Kept s s := ⟨rfl,rfl,rfl,rfl,rfl⟩

theorem kept_trans (h : Kept s s') (h' : Kept s' s'') : Kept s s'' :=
  ⟨h'.debugdata.trans h.debugdata,h'.stackTrace.trans h.stackTrace,h'.evaluateId.trans h.evaluateId,
    h'.pendingRequests.trans h.pendingRequests,h'.commands.trans h.commands⟩

theorem kept_respond (requestSeq : ℕ) (success : Bool) : Kept s (s.respond requestSeq success) :=
  ⟨rfl,rfl,rfl,rfl,rfl⟩

theorem kept_createVariable (vm stackLevel : ℕ) (scope : Option ℕ) (reference : Option ℤ) :
    Kept s (createVariable s vm stackLevel scope reference).2 := ⟨rfl,rfl,rfl,rfl,rfl⟩

theorem kept_nested (vm stackLevel : ℕ) (nested : Option (Option ℤ)) :
    Kept s (nestedReference vm stackLevel s nested).2 := by
  cases nested with
  | none => exact kept_refl
  | some reference => exact kept_createVariable vm stackLevel none reference

theorem kept_parseElements (host : Host) (vm stackLevel : ℕ) (els : List XmlSimple.Node) (s : State) :
    Kept s (parseElements host vm stackLevel els s).2 := by
  induction els generalizing s with
  | nil => exact kept_refl
  | cons el els ih =>
    unfold parseElements
    split
    · exact kept_refl
    · rename_i child nested hel
      have hnested := kept_nested (s := s) vm stackLevel nested
      dsimp only
      split
      · exact kept_trans hnested (ih _)
      · exact hnested

theorem kept_parseVariable (host : Host) (root : XmlSimple.Node) (vm stackLevel : ℕ) (s : State) :
    Kept s (parseVariable host root vm stackLevel s).2 := by
  unfold parseVariable
  split
  · exact kept_refl
  · exact kept_parseElements host vm stackLevel _ s

theorem kept_evaluateRet (host : Host) (seq vm stackLevel : ℕ) (success : Bool) (root : Root)
    (s : State) : Kept s (evaluateRet host seq vm stackLevel success root s).1 := by
  unfold evaluateRet
  split
  · exact kept_respond _ _
  · split
    · exact kept_refl
    · split
      · exact kept_respond _ _
      · split
        · exact kept_refl
        · exact kept_trans (kept_createVariable _ _ _ _) (kept_respond _ _)
        · exact kept_respond _ _
        · exact kept_respond _ _

theorem kept_expandRet (host : Host) (seq : ℕ) (reference : ℤ) (vm stackLevel : ℕ) (success : Bool)
    (root : Root) (s : State) : Kept s (expandRet host seq reference vm stackLevel success root s).1 := by
  unfold expandRet
  split
  · exact kept_refl
  · split
    · exact kept_respond _ _
    · split
      · exact kept_refl
      · split
        · exact kept_refl
        · rename_i root hroot
          have hparsed := kept_parseVariable host root vm stackLevel s
          split
          · rename_i t ht
            rw [ht] at hparsed
            exact hparsed
          · rename_i values t ht
            rw [ht] at hparsed
            split
            · exact hparsed
            · dsimp only
              split
              · exact ⟨hparsed.debugdata,hparsed.stackTrace,hparsed.evaluateId,
                  hparsed.pendingRequests,hparsed.commands⟩
              · exact kept_trans hparsed (kept_respond _ _)

end Kept

section Answers

def callback (c : Command) (success : Bool) (result : Bytes) (s : State) : Option Proc :=
  match parseEvaluateResult (some success) (some result), c.asked with
  | .ok (_,root), .evaluate =>
    match s.pendingRequests c.seq, if success then toboolean root else .ok false with
    | some callback, .ok hit => some (callback hit success root)
    | _, _ => none
  | _, _ => none

/-- The state in which an answer leaves its callback, which is dropped unless it raised. -/
def called (hits : ℕ) (c : Command) (p : Proc) (s : State) : State :=
  match enact c.vm hits p s with
  | (s,true) => s
  | (s,false) => {s with pendingRequests := Function.update s.pendingRequests c.seq none}

variable (host : Host) (hits : ℕ) (c : Command) (success : Bool) (result : Bytes) (s : State)

theorem answer_kept : Kept
    (match callback c success result s with
      | none => s
      | some p => called hits c p s)
    (answer host hits c success result s).1 := by
  unfold answer callback
  cases parseEvaluateResult (some success) (some result) with
  | error e => exact kept_refl
  | ok q =>
    obtain ⟨suc,root⟩ := q
    cases c.asked with
    | expand scope reference => exact kept_expandRet host _ _ _ _ _ _ s
    | evaluate =>
      dsimp only
      have hemit (t : State) := kept_evaluateRet host c.seq c.vm c.stackLevel suc root t
      unfold evaluateAnswer bpEvaulateRet
      cases s.pendingRequests c.seq with
      | none =>
        dsimp only
        have hfirst := hemit s
        split
        · rename_i t ht
          rw [ht] at hfirst
          exact hfirst
        · rename_i t ht
          rw [ht] at hfirst
          exact kept_trans hfirst (hemit t)
      | some callback =>
        dsimp only
        cases (if success then toboolean root else .ok false) with
        | error e => exact kept_refl
        | ok hit =>
          dsimp only
          unfold called
          cases henact : enact c.vm hits (callback hit success root) s with
          | mk t raised =>
            cases raised with
            | true => exact kept_refl
            | false => exact hemit _

theorem callback_pending {p : Proc} (h : callback c success result s = some p) :
    ∃ cb hit root, s.pendingRequests c.seq = some cb ∧ c.asked = .evaluate ∧ p = cb hit success root := by
  unfold callback at h
  split at h
  · rename_i suc root hparse hasked
    split at h
    · rename_i cb hit hpending hhit
      cases h
      exact ⟨cb,hit,root,hpending,hasked,rfl⟩
    · cases h
  · cases h

end Answers

section Handlers

def resumes : Name → Bool
  | .continue => true
  | .next => true
  | .stepIn => true
  | .stepOut => true
  | _ => false

def asked (req : Request) : Option ℕ :=
  if resumes req.command then
    match req.arguments with
    | some {threadId := .ok threadId,..} => some threadId
    | _ => none
  else none

def resumed (out : Outside) (req : Request) (s : State) : Option ℕ :=
  if s.debugdata && !out.raises .write then asked req else none

def frameOf (req : Request) (s : State) : Option (ℕ × ℕ) :=
  match req.command, req.arguments with
  | .scopes, some {frameId := some (.ok frameId),..} =>
    if s.stackTrace (threadIdOf frameId) then some (threadIdOf frameId,stackLevelOf frameId) else none
  | _, _ => none

def withScopes (s : State) (vm stackLevel : ℕ) : State :=
  (createVariable (createVariable s vm stackLevel (some 1) none).2 vm stackLevel (some 2) none).2

theorem kept_withScopes (s : State) (vm stackLevel : ℕ) : Kept s (withScopes s vm stackLevel) :=
  ⟨rfl,rfl,rfl,rfl,rfl⟩

inductive Acted (req : Request) (s : State) : State → Prop where
  | quiet {t : State} : Quiet s t → Acted req s t
  | began {t : State} : req.command = .launch ∨ req.command = .attach →
      Quiet {s with debugdata := true} t → Acted req s t
  | sent {t : State} (c : Command) : s.debugdata = true → s.stackTrace c.vm = true →
      c.owner = some req.seq → Quiet (s.send c) t → Acted req s t
  | ended {t : State} : s.debugdata = true → Quiet {s with debugdata := false} t → Acted req s t

/-- What a request does, by the frame it asks for or the thread it resumes. -/
def Spec (out : Outside) (req : Request) (s t : State) : Prop :=
  match frameOf req s, resumed out req s with
  | some (vm,stackLevel), _ => Quiet (withScopes s vm stackLevel) t
  | none, some threadId =>
    Quiet {s with stackTrace := Function.update s.stackTrace threadId false} t
  | none, none => Acted req s t

variable {out : Outside} {req : Request} {s t u : State}

theorem acted_trans (h : Acted req s t) (hu : Quiet t u) : Acted req s u := by
  cases h with
  | quiet hq => exact .quiet (quiet_trans hq hu)
  | began hc hq => exact .began hc (quiet_trans hq hu)
  | sent c hd ht ho hq => exact .sent c hd ht ho (quiet_trans hq hu)
  | ended hd hq => exact .ended hd (quiet_trans hq hu)

theorem spec_trans (h : Spec out req s t) (hu : Quiet t u) : Spec out req s u := by
  unfold Spec at *
  split at h
  · exact quiet_trans h hu
  · exact quiet_trans h hu
  · exact acted_trans h hu

theorem acted_answering (call : Requests.Call) : Acted req s (answering call out req s).1 := by
  unfold answering
  split
  · exact .quiet quiet_refl
  · exact .quiet (quiet_respond _ _)

theorem acted_launch (hc : req.command = .launch) : Acted req s (launch out req s).1 := by
  unfold launch
  dsimp only
  split
  · exact .quiet quiet_refl
  · split
    · exact .quiet (quiet_respond _ _)
    · split
      · exact .began (.inl hc) quiet_refl
      · exact .began (.inl hc) (quiet_respond _ _)

theorem acted_attach (hc : req.command = .attach) : Acted req s (attach out req s).1 := by
  unfold attach
  dsimp only
  split
  · exact .quiet quiet_refl
  · split
    · exact .quiet (quiet_respond _ _)
    · split
      · exact .quiet quiet_refl
      · split
        · exact .began (.inr hc) quiet_refl
        · exact .began (.inr hc) (quiet_respond _ _)

theorem acted_evaluate : Acted req s (Requests.evaluate out req s).1 := by
  unfold Requests.evaluate
  split
  · exact .quiet quiet_refl
  · unfold Variables.evaluate
    split
    · exact .quiet quiet_refl
    · dsimp only
      split
      · exact .quiet quiet_refl
      · rename_i htraced
        split
        · exact .quiet quiet_refl
        · rename_i hdata
          split
          · exact .quiet quiet_refl
          · exact .sent _ (by simpa using hdata) (by simpa using htraced) rfl quiet_refl

theorem acted_variables : Acted req s (Requests.«variables» out req s).1 := by
  unfold Requests.«variables»
  split
  · exact .quiet quiet_refl
  · unfold Variables.«variables»
    split
    · exact .quiet quiet_refl
    · split
      · exact .quiet (quiet_respond _ _)
      · split
        · exact .quiet quiet_refl
        · rename_i htraced
          split
          · exact .quiet quiet_refl
          · rename_i hdata
            exact .sent _ (by simpa using hdata) (by simpa using htraced) rfl quiet_refl

/-- The end of a session. -/
theorem workerStop_cases (call : Requests.Call) (out : Outside) (s : State) :
    Quiet s (workerStop call out s).1 ∨
      s.debugdata = true ∧ Quiet {s with debugdata := false} (workerStop call out s).1 := by
  unfold workerStop
  split
  · rename_i hdata
    split
    · exact .inl quiet_refl
    · exact .inr ⟨hdata,quiet_refl⟩
  · exact .inl quiet_refl

theorem acted_workerStop (req : Request) (out : Outside) (call : Requests.Call) (h : Quiet s t) :
    Acted req s (workerStop call out t).1 := by
  rcases workerStop_cases call out t with hq | ⟨hd,hq⟩
  · exact .quiet (quiet_trans h hq)
  · have hended : Quiet {s with debugdata := false} {t with debugdata := false} :=
      ⟨rfl,h.stackTrace,h.«variables»,h.variableId,h.objects,h.evaluateId,h.pendingRequests,h.commands⟩
    exact .ended (h.debugdata ▸ hd) (quiet_trans hended hq)

theorem acted_disconnect : Acted req s (disconnect out req s).1 := by
  have hstop : Quiet s {s with stop := true} := ⟨rfl,rfl,rfl,rfl,rfl,rfl,rfl,rfl⟩
  unfold disconnect
  dsimp only
  split
  · exact .quiet hstop
  · rename_i arg harg
    have hworker := acted_workerStop req out
      (if arg.terminateDebuggee then .stopDebuggee else .detach) hstop
    split
    · rename_i t ht
      rw [ht] at hworker
      exact hworker
    · rename_i t ht
      rw [ht] at hworker
      exact acted_trans hworker (quiet_respond _ _)

theorem acted_terminate : Acted req s (terminate out req s).1 := by
  have hworker := acted_workerStop req out .stopDebuggee (quiet_refl (s := s))
  unfold terminate
  split
  · rename_i t ht
    rw [ht] at hworker
    exact hworker
  · rename_i t ht
    rw [ht] at hworker
    exact acted_trans hworker (quiet_respond _ _)

theorem acted_pause : Acted req s (pause out req s).1 := by
  unfold pause
  split
  · exact .quiet quiet_refl
  · exact .quiet (quiet_respond _ _)

theorem frameOf_none (hscopes : req.command ≠ .scopes) : frameOf req s = none := by
  unfold frameOf
  split
  · rename_i hcommand harguments
    exact absurd hcommand hscopes
  · rfl

theorem resumed_none (hresumes : resumes req.command = false) : resumed out req s = none := by
  simp [resumed, asked, hresumes]

theorem spec_acted (hscopes : req.command ≠ .scopes) (hresumes : resumes req.command = false)
    (h : Acted req s t) : Spec out req s t := by
  unfold Spec
  rw [frameOf_none hscopes, resumed_none hresumes]
  exact h

theorem spec_scopes (hc : req.command = .scopes) : Spec out req s (Requests.scopes out req s).1 := by
  have hnone : resumed out req s = none := resumed_none (by rw [hc]; rfl)
  unfold Spec
  rw [hnone]
  obtain ⟨seq,command,arguments⟩ := req
  cases hc
  unfold Requests.scopes frameOf
  cases arguments with
  | none => exact .quiet quiet_refl
  | some arg =>
    obtain ⟨reference,frame,expression,threadId,terminates⟩ := arg
    unfold Variables.scopes
    rcases frame with _ | _ | frameId
    · exact .quiet quiet_refl
    · exact .quiet quiet_refl
    · dsimp only
      cases s.stackTrace (threadIdOf frameId) with
      | false => exact .quiet (quiet_respond _ _)
      | true => exact quiet_respond _ _

theorem spec_resuming (hresumes : resumes req.command = true) :
    Spec out req s (resuming out req s).1 := by
  have hnone : frameOf req s = none := frameOf_none (by rintro hc; rw [hc] at hresumes; cases hresumes)
  unfold Spec
  rw [hnone]
  obtain ⟨seq,command,arguments⟩ := req
  unfold resumed asked resuming
  rw [if_pos hresumes]
  cases s.debugdata with
  | false => exact .quiet (quiet_respond _ _)
  | true =>
    rcases arguments with _ | ⟨reference,frame,expression,_ | threadId,terminates⟩
    · cases out.raises .write <;> exact .quiet quiet_refl
    · cases out.raises .write <;> exact .quiet quiet_refl
    · cases out.raises .write with
      | true => exact .quiet quiet_refl
      | false => exact quiet_respond _ _

theorem handler_spec (out : Outside) (s : State) (handler : Handler) (h : handlers req.command = some handler) :
    Spec out req s (handler out req s).1 := by
  cases hc : req.command <;> rw [hc] at h <;> cases h
  case scopes => exact spec_scopes hc
  case «continue» => exact spec_resuming (by rw [hc]; rfl)
  case next => exact spec_resuming (by rw [hc]; rfl)
  case stepIn => exact spec_resuming (by rw [hc]; rfl)
  case stepOut => exact spec_resuming (by rw [hc]; rfl)
  all_goals refine spec_acted (by rw [hc]; nofun) (by rw [hc]; rfl) ?_
  case setBreakpoints => exact acted_answering _
  case setExceptionBreakpoints => exact acted_answering _
  case stackTrace => exact acted_answering _
  case source => exact acted_answering _
  case launch => exact acted_launch hc
  case attach => exact acted_attach hc
  case «variables» => exact acted_variables
  case evaluate => exact acted_evaluate
  case disconnect => exact acted_disconnect
  case terminate => exact acted_terminate
  case restart => exact acted_workerStop _ _ _ quiet_refl
  case pause => exact acted_pause
  all_goals exact .quiet (quiet_respond _ _)

/-- Everything that a request can do. -/
theorem handle_acts (out : Outside) (req : Request) (s : State) : Spec out req s (handle out req s) := by
  unfold handle
  cases hh : handlers req.command with
  | none =>
    have hunknown : req.command ≠ .scopes ∧ resumes req.command = false := by
      cases hc : req.command <;> rw [hc] at hh <;> cases hh
      exact ⟨nofun,rfl⟩
    exact spec_acted hunknown.1 hunknown.2 (.quiet quiet_refl)
  | some handler =>
    have hspec := handler_spec out s handler hh
    dsimp only
    split
    · rename_i t ht
      rw [ht] at hspec
      exact spec_trans hspec (quiet_respond _ _)
    · rename_i t ht
      rw [ht] at hspec
      exact hspec

end Handlers

section Routes

/-- What the handler of another request does: it leaves the routes alone, asks a
stopped thread, or ends the session. -/
inductive Handled (seq : ℕ) (s : State) : State → Prop where
  | kept {s' : State} : Kept s s' → Handled seq s s'
  | sent {s' : State} (c : Command) : s.debugdata = true → s.stackTrace c.vm = true →
      c.owner = some seq → Kept (s.send c) s' → Handled seq s s'
  | stopped {s' : State} : s.debugdata = true → Kept {s with debugdata := false} s' → Handled seq s s'

/-- A request in a session that is not about to begin. -/
theorem handle_spec (s : State) (req : Request) (out : Outside) (hlaunch : req.command ≠ .launch)
    (hattach : req.command ≠ .attach) :
    match resumed out req s with
    | some t => Kept {s with stackTrace := Function.update s.stackTrace t false} (handle out req s)
    | none => Handled req.seq s (handle out req s) := by
  have hacts := handle_acts out req s
  unfold Spec at hacts
  cases hframe : frameOf req s with
  | some frame =>
    have hc : req.command = .scopes := by
      by_contra hne
      rw [frameOf_none hne] at hframe
      cases hframe
    rw [hframe] at hacts
    rw [resumed_none (by rw [hc]; rfl)]
    obtain ⟨vm,stackLevel⟩ := frame
    exact .kept (kept_trans (kept_withScopes s vm stackLevel) (kept_of_quiet hacts))
  | none =>
    rw [hframe] at hacts
    cases hr : resumed out req s with
    | some threadId =>
      rw [hr] at hacts
      exact kept_of_quiet hacts
    | none =>
      rw [hr] at hacts
      cases hacts with
      | quiet hq => exact .kept (kept_of_quiet hq)
      | began hc hq => exact (hc.elim hlaunch hattach).elim
      | sent c hd ht ho hq => exact .sent c hd ht ho (kept_of_quiet hq)
      | ended hd hq => exact .stopped hd (kept_of_quiet hq)

end Routes

end Vecoda.Routing

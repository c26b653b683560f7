import Vecoda.Responses
import Vecoda.Transitions

/-!
# One response for each request

What every handler adds for its request and every answer for its command, and
from that the steps that keep the law: the sound ones. A run is lawful exactly
if each of its steps is sound.
-/

set_option autoImplicit false

namespace Vecoda.OneResponse
open MessagePipe LuaText XmlSimple EventStream HandleBreak Variables Requests Responses Transitions

def Counts (seq : ℕ) (s : State) (r : State × Bool) (total : ℕ) : Prop :=
  ∃ rs cs, Adds seq (some seq) s r.1 rs cs ∧ rs.length + cs.length + (if r.2 then 1 else 0) = total

section Handlers

variable {seq : ℕ} {s s' : State}

theorem counts_raise (h : Same s s') : Counts seq s (s',true) 1 :=
  ⟨[],[],adds_nothing h.1 h.2.1 h.2.2,rfl⟩

theorem counts_silent (h : Same s s') : Counts seq s (s',false) 0 :=
  ⟨[],[],adds_nothing h.1 h.2.1 h.2.2,rfl⟩

theorem counts_responded (h : Same s s') (success raised : Bool) :
    Counts seq s (s'.respond seq success,raised) (if raised then 2 else 1) :=
  ⟨[⟨seq,success⟩],[],adds_response h.1 success h.2.1 h.2.2,by cases raised <;> rfl⟩

theorem counts_respond (h : Same s s') (success : Bool) : Counts seq s (s'.respond seq success,false) 1 :=
  counts_responded h success false

theorem counts_send (asked : Asked) (wireSeq vm stackLevel : ℕ) :
    Counts seq s (s.send ⟨some seq,asked,wireSeq,vm,stackLevel⟩,false) 1 :=
  ⟨[],[_],⟨rfl,by simp [State.send],rfl,nofun,by simp,nofun⟩,rfl⟩

variable (out : Outside) (req : Request) (s)

theorem counts_answering (call : Call) : Counts req.seq s (answering call out req s) 1 := by
  rw [answering]
  split
  · exact counts_raise ⟨rfl,rfl,rfl⟩
  · exact counts_respond ⟨rfl,rfl,rfl⟩ true

theorem counts_answerOnly : Counts req.seq s (answerOnly out req s) 1 :=
  counts_respond ⟨rfl,rfl,rfl⟩ true

theorem counts_launch : Counts req.seq s (launch out req s) 1 := by
  rw [launch]
  split
  · exact counts_raise ⟨rfl,rfl,rfl⟩
  · split
    · exact counts_respond ⟨rfl,rfl,rfl⟩ false
    · dsimp only
      split
      · exact counts_raise ⟨rfl,rfl,rfl⟩
      · refine counts_respond ?_ true
        exact ⟨rfl,rfl,rfl⟩

/-- An attach that gets past its response without being able to announce what it found. -/
def attachBroken : Bool :=
  !out.raises .arguments && out.addressed && out.attached && !out.raises .filesInit &&
    !out.raises .resume && out.raises .announce

theorem counts_attach : Counts req.seq s (attach out req s) (if attachBroken out then 2 else 1) := by
  unfold attach attachBroken
  cases out.raises .arguments with
  | true => exact counts_raise ⟨rfl,rfl,rfl⟩
  | false =>
    cases out.addressed with
    | false => exact counts_respond ⟨rfl,rfl,rfl⟩ false
    | true =>
      cases out.attached with
      | false => exact counts_respond ⟨rfl,rfl,rfl⟩ false
      | true =>
        cases out.raises .filesInit with
        | true => exact counts_raise ⟨rfl,rfl,rfl⟩
        | false =>
          cases out.raises .resume with
          | true =>
            apply counts_raise
            exact ⟨rfl,rfl,rfl⟩
          | false =>
            refine counts_responded ?_ true _
            exact ⟨rfl,rfl,rfl⟩

def Expandable (arg : Arguments) : Prop :=
  ∃ v, arg.variablesReference.bind s.«variables» = some v ∧
    (v.value.isSome = true ∨ s.stackTrace v.vm = true)

theorem counts_variables (arg : Arguments) : ∃ total,
    Counts req.seq s (Variables.«variables» req.seq arg s) total ∧ (total = 1 ↔ Expandable s arg) := by
  unfold Variables.«variables» Expandable
  cases arg.variablesReference.bind s.«variables» with
  | none => exact ⟨0,counts_silent ⟨rfl,rfl,rfl⟩,by simp⟩
  | some v =>
    cases hvalue : v.value.isSome with
    | true => exact ⟨1,by simpa [hvalue] using counts_respond ⟨rfl,rfl,rfl⟩ true,by simp [hvalue]⟩
    | false =>
      cases htrace : s.stackTrace v.vm with
      | false => exact ⟨0,by simpa [hvalue, htrace] using counts_silent ⟨rfl,rfl,rfl⟩,by simp [hvalue, htrace]⟩
      | true =>
        refine ⟨1,?_,by simp [htrace]⟩
        cases hdata : s.debugdata with
        | false => simpa [hvalue, htrace, hdata] using counts_raise ⟨rfl,rfl,rfl⟩
        | true => simpa [hvalue, htrace, hdata] using counts_send _ _ _ _

def Evaluable (arg : Arguments) : Prop :=
  ∀ frameId, arg.frameId.getD (.ok 0) = .ok frameId → s.stackTrace (threadIdOf frameId) = true

theorem counts_evaluate (arg : Arguments) : ∃ total,
    Counts req.seq s (Variables.evaluate req.seq arg s) total ∧ (total = 1 ↔ Evaluable s arg) := by
  unfold Variables.evaluate Evaluable
  cases arg.frameId.getD (.ok 0) with
  | error e => exact ⟨1,counts_raise ⟨rfl,rfl,rfl⟩,by simp⟩
  | ok frameId =>
    cases htrace : s.stackTrace (threadIdOf frameId) with
    | false => exact ⟨0,by simpa [htrace] using counts_silent ⟨rfl,rfl,rfl⟩,by simp [htrace]⟩
    | true =>
      refine ⟨1,?_,by simp [htrace]⟩
      cases hdata : s.debugdata with
      | false => simpa [htrace, hdata] using counts_raise ⟨rfl,rfl,rfl⟩
      | true =>
        cases hexpression : arg.expression with
        | error e => simpa [htrace, hdata] using counts_raise ⟨rfl,rfl,rfl⟩
        | ok expression => simpa [htrace, hdata] using counts_send _ _ _ _

theorem same_scopes (arg : Arguments) : Same s (Variables.scopes arg s).1 := by
  rw [Variables.scopes]
  split
  · dsimp only
    split <;> exact ⟨rfl,rfl,rfl⟩
  · exact ⟨rfl,rfl,rfl⟩

theorem counts_scopes : Counts req.seq s (Requests.scopes out req s) 1 := by
  rw [Requests.scopes]
  split
  · exact counts_raise ⟨rfl,rfl,rfl⟩
  · rename_i arg _
    have hsame := same_scopes s arg
    split
    · rename_i hscopes
      rw [hscopes] at hsame
      exact counts_raise hsame
    · rename_i hscopes
      rw [hscopes] at hsame
      exact counts_respond hsame true

theorem same_workerStop (call : Call) : Same s (workerStop call out s).1 := by
  rw [workerStop]
  split
  · split <;> exact ⟨rfl,rfl,rfl⟩
  · exact ⟨rfl,rfl,rfl⟩

/-- The answer of a handler that ends a session first. -/
theorem counts_stopped {s : State} (s' : State) (h : Same s s') (call : Call) :
    Counts req.seq s (match workerStop call out s' with
      | (s'',true) => (s'',true)
      | (s'',false) => (s''.respond req.seq true,false)) 1 := by
  have hsame := same_workerStop s' out call
  split
  · rename_i hstop
    rw [hstop] at hsame
    exact counts_raise ⟨hsame.1.trans h.1,hsame.2.1.trans h.2.1,hsame.2.2.trans h.2.2⟩
  · rename_i hstop
    rw [hstop] at hsame
    exact counts_respond ⟨hsame.1.trans h.1,hsame.2.1.trans h.2.1,hsame.2.2.trans h.2.2⟩ true

theorem counts_disconnect : Counts req.seq s (disconnect out req s) 1 := by
  unfold disconnect
  split
  · exact counts_raise ⟨rfl,rfl,rfl⟩
  · refine counts_stopped out req {s with stop := true} ?_ _
    exact ⟨rfl,rfl,rfl⟩

theorem counts_terminate : Counts req.seq s (terminate out req s) 1 :=
  counts_stopped out req s ⟨rfl,rfl,rfl⟩ _

theorem counts_restart : Counts req.seq s (restart out req s) 1 :=
  counts_raise (same_workerStop s out .stopDebuggee)

theorem counts_resuming : Counts req.seq s (resuming out req s) 1 := by
  rw [resuming]
  split
  · exact counts_respond ⟨rfl,rfl,rfl⟩ true
  · split
    · split
      · exact counts_raise ⟨rfl,rfl,rfl⟩
      · refine counts_respond ?_ true
        exact ⟨rfl,rfl,rfl⟩
    · exact counts_raise ⟨rfl,rfl,rfl⟩

theorem counts_pause : Counts req.seq s (pause out req s) 1 := by
  rw [pause]
  split
  · exact counts_raise ⟨rfl,rfl,rfl⟩
  · exact counts_respond ⟨rfl,rfl,rfl⟩ true

end Handlers

/-- The requests that are handled with one response, now or for a command. -/
def RequestSound (s : State) (req : Request) (out : Outside) : Prop :=
  match req.command with
  | .unknown _ => False
  | .attach => attachBroken out = false
  | .«variables» => ∀ arg, req.arguments = some arg → Expandable s arg
  | .evaluate => ∀ arg, req.arguments = some arg → Evaluable s arg
  | _ => True

/-- `m.handle` adds the error response of a raise. -/
theorem adds_handle {seq : ℕ} {s : State} {r : State × Bool} {total : ℕ} (h : Counts seq s r total) :
    ∃ rs cs, Adds seq (some seq) s (match r with
      | (s',true) => s'.respond seq false
      | (s',false) => s') rs cs ∧ rs.length + cs.length = total := by
  obtain ⟨rs,cs,hadds,htotal⟩ := h
  obtain ⟨s',raised⟩ := r
  cases raised with
  | false => exact ⟨rs,cs,hadds,htotal⟩
  | true =>
    refine ⟨rs ++ [⟨seq,false⟩],cs ++ [],adds_trans hadds (adds_response rfl false rfl rfl),?_⟩
    simp only [if_true] at htotal
    simp only [List.length_append, List.length_cons, List.length_nil]
    omega

theorem counts_handler (s : State) (req : Request) (out : Outside) (handler : Handler)
    (h : handlers req.command = some handler) :
    ∃ total, Counts req.seq s (handler out req s) total ∧ (total = 1 ↔ RequestSound s req out) := by
  unfold RequestSound
  cases hname : req.command <;> rw [hname] at h <;> cases h
  case attach =>
    refine ⟨_,counts_attach s out req,?_⟩
    cases attachBroken out <;> simp
  case «variables» =>
    unfold Requests.«variables»
    cases harg : req.arguments with
    | none => exact ⟨1,counts_raise ⟨rfl,rfl,rfl⟩,by simp⟩
    | some arg => simpa using counts_variables s req arg
  case evaluate =>
    unfold Requests.evaluate
    cases harg : req.arguments with
    | none => exact ⟨1,counts_raise ⟨rfl,rfl,rfl⟩,by simp⟩
    | some arg => simpa using counts_evaluate s req arg
  case launch => exact ⟨1,counts_launch s out req,by simp⟩
  case scopes => exact ⟨1,counts_scopes s out req,by simp⟩
  case disconnect => exact ⟨1,counts_disconnect s out req,by simp⟩
  case terminate => exact ⟨1,counts_terminate s out req,by simp⟩
  case restart => exact ⟨1,counts_restart s out req,by simp⟩
  case pause => exact ⟨1,counts_pause s out req,by simp⟩
  case «continue» => exact ⟨1,counts_resuming s out req,by simp⟩
  case next => exact ⟨1,counts_resuming s out req,by simp⟩
  case stepIn => exact ⟨1,counts_resuming s out req,by simp⟩
  case stepOut => exact ⟨1,counts_resuming s out req,by simp⟩
  case setBreakpoints => exact ⟨1,counts_answering s out req _,by simp⟩
  case setExceptionBreakpoints => exact ⟨1,counts_answering s out req _,by simp⟩
  case stackTrace => exact ⟨1,counts_answering s out req _,by simp⟩
  case source => exact ⟨1,counts_answering s out req _,by simp⟩
  all_goals exact ⟨1,counts_answerOnly s out req,by simp⟩

theorem handle_iff (s : State) (req : Request) (out : Outside) :
    ∃ rs cs, Adds req.seq (some req.seq) s (handle out req s) rs cs ∧
      (rs.length + cs.length = 1 ↔ RequestSound s req out) := by
  unfold handle
  cases h : handlers req.command with
  | none =>
    refine ⟨[],[],adds_nothing rfl rfl rfl,?_⟩
    cases hname : req.command <;> rw [hname] at h <;> cases h
    simp [RequestSound, hname]
  | some handler =>
    obtain ⟨total,hcounts,htotal⟩ := counts_handler s req out handler h
    obtain ⟨rs,cs,hadds,hlen⟩ := adds_handle hcounts
    exact ⟨rs,cs,hadds,by rw [hlen, htotal]⟩

section Answers

variable (host : Host)

def evaluateFails (suc : Bool) (root : Root) : Bool :=
  suc && match root with
    | .text _ => true
    | .node root => root.numChildren ≠ 0 && (evaluated host root).toOption.isNone

def raises (hits : ℕ) : Proc → Bool
  | .done => false
  | .raise => true
  | .emit _ k => raises hits k
  | .setStacks _ k => raises hits k
  | .hit k => raises hits (k (hits+1))
  | .evaluate _ _ _ _ => false

theorem enact_raises (thread hits : ℕ) (p : Proc) (s : State) :
    (enact thread hits p s).2 = raises hits p := by
  induction p generalizing s with
  | done => rfl
  | raise => rfl
  | emit e k ih => exact ih (effect s e)
  | setStacks frames k ih => exact ih _
  | hit k ih => exact ih (hits+1) s
  | evaluate expression threadId stackLevel callback => rfl

def callbackFails (hits : ℕ) (c : Command) (success : Bool) (root : Root) (s : State) : Bool :=
  match s.pendingRequests c.seq with
  | none => false
  | some callback =>
    match if success then toboolean root else .ok false with
    | .error _ => true
    | .ok hit => raises hits (callback hit success root)

theorem enact_adds (seq thread hits : ℕ) (p : Proc) (s : State) :
    ∃ cs, Adds seq none s (enact thread hits p s).1 [] cs := by
  induction p generalizing s with
  | done => exact ⟨[],adds_nothing rfl rfl rfl⟩
  | raise => exact ⟨[],adds_nothing rfl rfl rfl⟩
  | emit e k ih =>
    obtain ⟨cs,h⟩ := ih (effect s e)
    have hsame : Adds seq none s (effect s e) [] [] := by
      cases e <;> exact adds_nothing rfl rfl rfl
    exact ⟨_,adds_trans hsame h⟩
  | setStacks frames k ih =>
    obtain ⟨cs,h⟩ := ih {s with stackTrace := Function.update s.stackTrace thread true}
    exact ⟨cs,h.received,h.responses,h.commands,h.numbered,h.owned,h.evaluates⟩
  | hit k ih => exact ih (hits+1) s
  | evaluate expression threadId stackLevel callback =>
    exact ⟨[_],rfl,by simp [enact, State.send],rfl,nofun,by simp,by simp⟩

theorem evaluateRet_fails (seq vm stackLevel : ℕ) {suc : Bool} {root : Root} (s : State)
    (h : evaluateFails host suc root = true) :
    evaluateRet host seq vm stackLevel suc root s = (s,true) := by
  obtain ⟨rfl,hroot⟩ := Bool.and_eq_true_iff.mp h
  cases root with
  | text t => rfl
  | node root =>
    obtain ⟨hchildren,hvalue⟩ := Bool.and_eq_true_iff.mp hroot
    have hchildren : root.numChildren ≠ 0 := of_decide_eq_true hchildren
    cases hev : evaluated host root with
    | error e => simp [evaluateRet, hchildren, hev]
    | ok v => simp [hev, Except.toOption] at hvalue

theorem evaluateRet_responds (seq vm stackLevel : ℕ) {suc : Bool} {root : Root} (s : State)
    (h : evaluateFails host suc root = false) :
    ∃ s' r, evaluateRet host seq vm stackLevel suc root s = (s',false) ∧
      Adds seq none s s' [r] [] := by
  have hresponse : ∀ success, Adds seq none s (s.respond seq success) [⟨seq,success⟩] [] :=
    fun success => adds_response rfl success rfl rfl
  unfold evaluateRet
  cases suc with
  | false => exact ⟨_,_,rfl,hresponse false⟩
  | true =>
    cases root with
    | text t => cases h
    | node root =>
      by_cases hchildren : root.numChildren = 0
      · exact ⟨_,_,by simp [hchildren],hresponse false⟩
      · cases hev : evaluated host root with
        | error e => simp [evaluateFails, hchildren, hev, Except.toOption] at h
        | ok v =>
          simp only [hchildren, hev, if_false, Bool.not_true, Bool.false_eq_true]
          cases v with
          | table reference =>
            refine ⟨_,_,rfl,adds_response ?_ true ?_ ?_⟩ <;> rfl
          | nothing => exact ⟨_,_,rfl,hresponse false⟩
          | _ => exact ⟨_,_,rfl,hresponse true⟩

variable (hits : ℕ) (c : Command) (success suc : Bool) (root : Root) (s : State)

def answerFails : Bool := callbackFails hits c success root s || evaluateFails host suc root

/-- The responses of an `EvaluateRet` are two, or one if it was a breakpoint's,
and none if anything raises. -/
theorem evaluateAnswer_adds : ∃ rs cs, Adds c.seq none s (evaluateAnswer host hits c success suc root s).1 rs cs ∧
    rs.length = if answerFails host hits c success suc root s then 0
      else if (s.pendingRequests c.seq).isSome then 1 else 2 := by
  have hnothing : Adds c.seq none s s [] [] := adds_nothing rfl rfl rfl
  unfold evaluateAnswer bpEvaulateRet answerFails callbackFails
  cases hpending : s.pendingRequests c.seq with
  | none =>
    cases hfails : evaluateFails host suc root with
    | true =>
      refine ⟨[],[],?_,by simp⟩
      simpa [evaluateRet_fails host c.seq c.vm c.stackLevel s hfails] using hnothing
    | false =>
      obtain ⟨s',r,he,hadds⟩ := evaluateRet_responds host c.seq c.vm c.stackLevel s hfails
      obtain ⟨s'',r',he',hadds'⟩ := evaluateRet_responds host c.seq c.vm c.stackLevel s' hfails
      exact ⟨_,_,by simpa [he, he'] using adds_trans hadds hadds',by simp⟩
  | some callback =>
    cases hhit : (if success then toboolean root else .ok false) with
    | error e => exact ⟨[],[],by simpa [hhit] using hnothing,by simp⟩
    | ok hit =>
      obtain ⟨cs,henact⟩ := enact_adds c.seq c.vm hits (callback hit success root) s
      have hraises := enact_raises c.vm hits (callback hit success root) s
      cases hrun : enact c.vm hits (callback hit success root) s with
      | mk s' raised =>
        rw [hrun] at henact hraises
        cases raised with
        | true => exact ⟨[],cs,by simpa [hrun] using henact,by simp [← hraises]⟩
        | false =>
          have hdone : Adds c.seq none s
              {s' with pendingRequests := Function.update s'.pendingRequests c.seq none} [] cs :=
            ⟨henact.received,henact.responses,henact.commands,henact.numbered,henact.owned,
              henact.evaluates⟩
          cases hfails : evaluateFails host suc root with
          | true =>
            refine ⟨[],cs,?_,by simp⟩
            simpa [hrun, evaluateRet_fails host c.seq c.vm c.stackLevel _ hfails] using hdone
          | false =>
            obtain ⟨s'',r,he,hadds⟩ := evaluateRet_responds host c.seq c.vm c.stackLevel
              {s' with pendingRequests := Function.update s'.pendingRequests c.seq none} hfails
            exact ⟨_,_,by simpa [hrun, he] using adds_trans hdone hadds,by simp [← hraises]⟩

theorem same_trans {s s' s'' : State} (h : Same s s') (h' : Same s' s'') : Same s s'' :=
  ⟨h'.1.trans h.1,h'.2.1.trans h.2.1,h'.2.2.trans h.2.2⟩

theorem same_nested (vm stackLevel : ℕ) (nested : Option (Option ℤ)) :
    Same s (nestedReference vm stackLevel s nested).2 := by
  cases nested <;> exact ⟨rfl,rfl,rfl⟩

def entryName (el : Node) : Option (Option Bytes) :=
  match parseElement host el with
  | .error _ => none
  | .ok (child,_) =>
    match host.toUtf8 child.name, host.toUtf8 child.value with
    | .ok name, .ok _ => some name
    | _, _ => none

def tableNames (root : Node) : Option (List (Option Bytes)) :=
  if root.name ≠ some (text "table") then some [] else root.children.tail.mapM (entryName host)

theorem parseElements_names (vm stackLevel : ℕ) (els : List Node) :
    Same s (parseElements host vm stackLevel els s).2 ∧
      (parseElements host vm stackLevel els s).1.map (·.map Child.name) = els.mapM (entryName host) := by
  induction els generalizing s with
  | nil => exact ⟨⟨rfl,rfl,rfl⟩,rfl⟩
  | cons el els ih =>
    unfold parseElements
    rw [List.mapM_cons, entryName]
    cases parseElement host el with
    | error e => exact ⟨⟨rfl,rfl,rfl⟩,rfl⟩
    | ok p =>
      obtain ⟨child,nested⟩ := p
      have hnested := same_nested s vm stackLevel nested
      dsimp only
      cases host.toUtf8 child.name with
      | error e => exact ⟨hnested,rfl⟩
      | ok name =>
        cases host.toUtf8 child.value with
        | error e => exact ⟨hnested,rfl⟩
        | ok value =>
          obtain ⟨hsame,hnames⟩ := ih (nestedReference vm stackLevel s nested).2
          refine ⟨same_trans hnested hsame,?_⟩
          dsimp only
          rw [← hnames]
          cases (parseElements host vm stackLevel els _).1 <;> rfl

theorem parseVariable_names (root : Node) (vm stackLevel : ℕ) :
    Same s (parseVariable host root vm stackLevel s).2 ∧
      (parseVariable host root vm stackLevel s).1.map (·.map Child.name) = tableNames host root := by
  unfold parseVariable tableNames
  split
  · exact ⟨⟨rfl,rfl,rfl⟩,rfl⟩
  · exact parseElements_names host s vm stackLevel _

def sortable (names : List (Option Bytes)) : Bool := names.length < 2 || names.all (·.isSome)

theorem sorts_eq (values : List Child) : sorts values = sortable (values.map Child.name) := by
  simp [sorts, sortable, Function.comp_def]

def readable (scope : Option ℕ) (suc : Bool) (root : Root) : Bool :=
  !suc || match root with
    | .text _ => false
    | .node root =>
      match root.child 1 with
      | .error _ => false
      | .ok root => (tableNames host root).any (fun names => scope.isSome || sortable names)

def Expands (reference : ℤ) : Prop :=
  ∃ v, s.«variables» reference = some v ∧ readable host v.scope suc root = true

theorem expandRet_adds (seq : ℕ) (reference : ℤ) (vm stackLevel : ℕ) :
    ∃ rs, Adds seq none s (expandRet host seq reference vm stackLevel suc root s).1 rs [] ∧
      (rs.length = 1 ↔ Expands host suc root s reference) := by
  have hnothing : ∀ s', Same s s' → Adds seq none s s' [] [] :=
    fun s' h => adds_nothing h.1 h.2.1 h.2.2
  unfold Expands expandRet
  cases hvariable : s.«variables» reference with
  | none => exact ⟨[],hnothing s ⟨rfl,rfl,rfl⟩,by simp⟩
  | some v =>
    cases suc with
    | false => exact ⟨[⟨seq,false⟩],adds_response rfl false rfl rfl,by simp [readable]⟩
    | true =>
      cases root with
      | text t => exact ⟨[],hnothing s ⟨rfl,rfl,rfl⟩,by simp [readable]⟩
      | node root =>
        cases hchild : root.child 1 with
        | error e =>
          exact ⟨[],by simpa [hchild] using hnothing s ⟨rfl,rfl,rfl⟩,by simp [readable, hchild]⟩
        | ok first =>
          obtain ⟨hsame,hnames⟩ := parseVariable_names host s first vm stackLevel
          cases hparse : parseVariable host first vm stackLevel s with
          | mk values s' =>
            rw [hparse] at hsame hnames
            cases values with
            | none =>
              exact ⟨[],by simpa [hchild, hparse] using hnothing s' hsame,
                by simp [readable, hchild, ← hnames]⟩
            | some values =>
              have hsorts := sorts_eq values
              cases hfine : v.scope.isNone && !sorts values with
              | true =>
                exact ⟨[],by simpa [hchild, hparse, hfine] using hnothing s' hsame,by
                  rw [hsorts] at hfine
                  simpa [readable, hchild, ← hnames] using hfine⟩
              | false =>
                simp only [Bool.not_true, Bool.false_eq_true, if_false, hchild, hparse, hfine]
                refine ⟨[⟨seq,true⟩],?_,?_⟩
                · split
                  · refine adds_response ?_ true ?_ ?_
                    · exact hsame.1
                    · exact hsame.2.1
                    · exact hsame.2.2
                  · exact adds_response hsame.1 true hsame.2.1 hsame.2.2
                · rw [hsorts] at hfine
                  simpa [readable, hchild, ← hnames, imp_iff_not_or, ← Option.isSome_iff_ne_none] using hfine

end Answers

/-- The answers that are handled with the one response of their request, or
with none if they were for a breakpoint. -/
def AnswerSound (host : Host) (hits : ℕ) (c : Command) (success : Bool) (result : Bytes) (s : State) :
    Prop :=
  match parseEvaluateResult (some success) (some result) with
  | .error _ => c.owner = none
  | .ok (suc,root) =>
    match c.asked with
    | .evaluate =>
      if answerFails host hits c success suc root s then c.owner = none
      else c.owner = some c.seq ∧ (s.pendingRequests c.seq).isSome = true
    | .expand _ reference => c.owner = some c.seq ∧
        Expands host suc root s reference

def Sound (s : State) : Label → Prop
  | .request req out => RequestSound s req out
  | .answer i hits success result host => ∀ c, s.commands[i]? = some c →
      AnswerSound host hits c success result (take s i)
  | _ => True

theorem answer_iff {s : State} (hr : Routed s) {i : ℕ} {c : Command} (hc : s.commands[i]? = some c)
    (host : Host) (hits : ℕ) (success : Bool) (result : Bytes) :
    ∃ rs cs, Adds c.seq none (take s i) (answer host hits c success result (take s i)).1 rs cs ∧
      ((match c.owner with
        | none => rs = []
        | some seq => c.seq = seq ∧ rs.length = 1) ↔ AnswerSound host hits c success result (take s i)) := by
  have hrouted := hr c (List.mem_of_getElem? hc)
  unfold answer AnswerSound
  cases parseEvaluateResult (some success) (some result) with
  | error e =>
    refine ⟨[],[],adds_nothing rfl rfl rfl,?_⟩
    cases c.owner <;> simp
  | ok p =>
    obtain ⟨suc,root⟩ := p
    dsimp only
    cases hasked : c.asked with
    | evaluate =>
      obtain ⟨rs,cs,hadds,hlen⟩ := evaluateAnswer_adds host hits c success suc root (take s i)
      refine ⟨rs,cs,hadds,?_⟩
      rw [← List.length_eq_zero_iff, hlen]
      cases answerFails host hits c success suc root (take s i) with
      | true => cases c.owner <;> simp
      | false =>
        cases (((take s i).pendingRequests c.seq).isSome) with
        | true => cases c.owner <;> simp [eq_comm]
        | false => cases c.owner <;> simp
    | expand scope reference =>
      obtain ⟨rs,hadds,hlen⟩ := expandRet_adds host suc root (take s i) c.seq reference c.vm c.stackLevel
      refine ⟨rs,[],hadds,?_⟩
      dsimp only
      rw [← hlen]
      cases howner : c.owner with
      | none =>
        rw [howner, hasked] at hrouted
        cases hrouted
      | some seq => simp [eq_comm]

section Steps

variable {s s' : State}

theorem same_lawful (h : Same s s') (hs : Lawful s) : Lawful s' where
  once := fun seq hseq => by
    rw [answered, inFlight, h.2.1, h.2.2]
    exact hs.once seq (h.1 ▸ hseq)
  known := fun r hr => by
    rw [h.1]
    exact hs.known r (h.2.1 ▸ hr)

theorem same_routed (h : Same s s') (hr : Routed s) : Routed s' := by
  unfold Routed
  rw [h.2.2, h.1]
  exact hr

theorem take_routed (hr : Routed s) (i : ℕ) : Routed (take s i) :=
  fun c hc => hr c (List.mem_of_mem_eraseIdx hc)

theorem receive_routed (hr : Routed s) (seq : ℕ) : Routed (receive s seq) := by
  intro c hc
  have := hr c hc
  cases howner : c.owner with
  | none => rwa [howner] at this
  | some q =>
    rw [howner] at this
    exact List.mem_append.mpr (.inl this)

theorem step_routed {l : Label} (hr : Routed s) (h : Step s l s') : Routed s' := by
  cases l with
  | request req out =>
    obtain ⟨-,-,rfl⟩ := h
    obtain ⟨rs,cs,hadds,-⟩ := handle_iff (receive s req.seq) req out
    refine routed_adds hadds (receive_routed hr req.seq) (fun q hq => ?_)
    cases hq
    exact List.mem_append.mpr (.inr (List.mem_singleton.mpr rfl))
  | stop nvm hits event a =>
    obtain ⟨-,rfl⟩ := h
    obtain ⟨cs,hadds⟩ := enact_adds 0 nvm hits (a.handle nvm event) s
    exact routed_adds hadds hr nofun
  | answer i hits success result host =>
    obtain ⟨-,c,hc,rfl⟩ := h
    obtain ⟨rs,cs,hadds,-⟩ := answer_iff hr hc host hits success result
    exact routed_adds hadds (take_routed hr i) nofun
  | other =>
    obtain ⟨-,rfl⟩ := h
    exact hr
  | disconnected out =>
    obtain ⟨-,rfl⟩ := h
    exact same_routed (same_workerStop s out .stopDebuggee) hr

/-- A step keeps the law exactly if it is sound. -/
theorem step_lawful_iff {l : Label} (hs : Lawful s) (hr : Routed s) (h : Step s l s') :
    Lawful s' ↔ Sound s l := by
  cases l with
  | request req out =>
    obtain ⟨-,hfresh,rfl⟩ := h
    obtain ⟨rs,cs,hadds,hsound⟩ := handle_iff (receive s req.seq) req out
    exact (lawful_request hs hr hfresh hadds).trans hsound
  | stop nvm hits event a =>
    obtain ⟨-,rfl⟩ := h
    obtain ⟨cs,hadds⟩ := enact_adds 0 nvm hits (a.handle nvm event) s
    refine iff_of_true ⟨fun q hq => ?_,fun r hmem => ?_⟩ trivial
    · rw [answered_adds hadds, inFlight_adds hadds]
      simpa using hs.once q (hadds.received ▸ hq)
    · rw [hadds.responses, List.append_nil] at hmem
      exact hadds.received ▸ hs.known r hmem
  | answer i hits success result host =>
    obtain ⟨-,c,hc,rfl⟩ := h
    obtain ⟨rs,cs,hadds,hsound⟩ := answer_iff hr hc host hits success result
    refine (lawful_answer hs hr hc hadds).trans (hsound.trans ⟨fun h c' hc' => ?_,fun h => h c hc⟩)
    rw [hc] at hc'
    cases hc'
    exact h
  | other =>
    obtain ⟨-,rfl⟩ := h
    exact iff_of_true hs trivial
  | disconnected out =>
    obtain ⟨-,rfl⟩ := h
    exact iff_of_true (same_lawful (same_workerStop s out .stopDebuggee) hs) trivial

end Steps

theorem lawful_initial : Lawful initial := ⟨nofun,nofun⟩

/-- Every request of a run has its one response or its one command, and no other
response is sent, exactly if every step of the run is sound. -/
theorem lawful_along_iff (labels : List Label) :
    Along Step Lawful initial labels ↔ Meets Step Sound initial labels := by
  refine along_iff_meets (I := fun s => Lawful s ∧ Routed s) (fun s h => h.1) ?_ ?_ initial labels
    ⟨lawful_initial,nofun⟩
  · rintro s l s' ⟨hs,hr⟩ hstep hsound
    exact ⟨(step_lawful_iff hs hr hstep).mpr hsound,step_routed hr hstep⟩
  · rintro s l s' ⟨hs,hr⟩ hstep hsound hlawful
    exact hsound ((step_lawful_iff hs hr hstep).mp hlawful)

def silent : Outside := ⟨fun _ => false,true,true,true⟩

def noFiles : Adapter := ⟨fun _ => none,fun _ => none⟩

def callOnFrame (frame : ℕ) : Arguments :=
  ⟨none,some (.ok frame),.ok (text "f()"),.error .raised,false⟩

def evaluatedOnce : List Label :=
  [.request ⟨1,.launch,none⟩ silent,
   .stop 1 0 (breakAt 2 4) noFiles,
   .request ⟨2,.evaluate,some (callOnFrame (frameId 1 0))⟩ silent,
   .answer 0 0 true [] ⟨fun _ => none,fun s => .ok s⟩]

theorem evaluatedOnce_unlawful : ¬ Along Step Lawful initial evaluatedOnce := by
  intro h
  have hlaunched := h.2 _ ⟨rfl,by decide,rfl⟩
  have hstopped := hlaunched.2 _ ⟨rfl,rfl⟩
  have hasked := hstopped.2 _ ⟨rfl,by decide,rfl⟩
  have hanswered := along_start (hasked.2 _ ⟨rfl,_,rfl,rfl⟩)
  exact absurd (hanswered.once 2 (by decide)) (by decide)

end Vecoda.OneResponse

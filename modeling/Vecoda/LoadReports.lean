import Vecoda.ScriptIdentity

/-!
# Reports of loads

The interceptors of LuaDll.cpp for the functions that load a chunk. Those of
`luaL_loadbuffer` and `luaL_loadfilex` run the original, which calls `lua_load`
and so enters the interceptor of that one, and both end with `PostLoadScript`.
What the library does with a chunk is a parameter, and so is what other threads
register and whether the front end is attached at each of the two calls.
-/

set_option autoImplicit false

namespace Vecoda.LoadReports
open MessagePipe (Bytes)
open LuaText Backend ScriptIdentity Transitions

inductive Event where
  | loadScript
  | loadError
  | break
  deriving DecidableEq, Repr

def postLoadScript (attached : Bool) (result : ℕ) (L : LuaState) (source : Bytes) (name : Option Bytes)
    (b : DebugBackend) : DebugBackend × List Event :=
  if !attached then (b,[])
  else
    let (b,index) := b.registerScript L (some source) name false
    (b,(if index.isSome then [.loadScript] else []) ++ (if result ≠ 0 then [.loadError,.break] else []))

/-- What happens beside a load: whether the front end is attached when the interceptor of
`lua_load` reports and when the one around it does, and what is registered in between. -/
structure Beside where
  inner : Bool
  outer : Bool
  others : List Call

def errFile : ℕ := 6

section Workers

variable (compile : Bytes → Option Bytes → Option Bytes → ℕ)

def readAll (pieces : List Bytes) : Bytes := (pieces.takeWhile (· ≠ [])).flatten

def luaLoadWorker (attached : Bool) (L : LuaState) (pieces : List Bytes) (name mode : Option Bytes)
    (b : DebugBackend) : (DebugBackend × List Event) × ℕ :=
  let buffer := readAll pieces
  let result := compile buffer name mode
  if buffer ≠ [] then (postLoadScript attached result L buffer name b,result) else ((b,[]),result)

def luaLLoadbufferxWorker (w : Beside) (L : LuaState) (buff : Bytes) (name mode : Option Bytes)
    (b : DebugBackend) : DebugBackend × List Event :=
  let original := luaLoadWorker compile w.inner L [buff] name mode b
  let post := postLoadScript w.outer original.2 L buff name (w.others.foldl perform original.1.1)
  (post.1,original.1.2 ++ post.2)

/-- The original gives `lua_load` what it reads of the file, if it can be opened, with its first line
and its line ends changed as it does; the worker then reads the file as it is. -/
def luaLLoadfilexWorker (w : Beside) (L : LuaState) (fileName : Bytes) (mode : Option Bytes)
    (opened : Option Bytes) (readError : Bool) (reopened : Option Bytes) (b : DebugBackend) :
    DebugBackend × List Event :=
  let name := byte '@' :: fileName
  let original :=
    match opened with
    | none => ((b,[]),errFile)
    | some content =>
      let load := luaLoadWorker compile w.inner L [content] (some name) mode b
      (load.1,if readError then errFile else load.2)
  match reopened with
  | none => original.1
  | some buffer =>
    let post := postLoadScript w.outer original.2 L buffer (some name) (w.others.foldl perform original.1.1)
    (post.1,original.1.2 ++ post.2)

inductive Load where
  | luaLoad (pieces : List Bytes) (name mode : Option Bytes)
  | luaLLoadbuffer (buff : Bytes) (name : Option Bytes)
  | luaLLoadfilex (fileName : Bytes) (mode : Option Bytes) (opened : Option Bytes) (readError : Bool)
      (reopened : Option Bytes)
  deriving DecidableEq, Repr

def Load.intercept (l : Load) (w : Beside) (L : LuaState) (b : DebugBackend) : DebugBackend × List Event :=
  match l with
  | .luaLoad pieces name mode => (luaLoadWorker compile w.inner L pieces name mode b).1
  | .luaLLoadbuffer buff name => luaLLoadbufferxWorker compile w L buff name none b
  | .luaLLoadfilex fileName mode opened readError reopened =>
    luaLLoadfilexWorker compile w L fileName mode opened readError reopened b

end Workers

def Load.chunk : Load → Option (Bytes × Option Bytes × Option Bytes)
  | .luaLoad pieces name mode => some (readAll pieces,name,mode)
  | .luaLLoadbuffer buff name => some (buff,name,none)
  | .luaLLoadfilex fileName mode opened _ _ =>
    opened.map (fun content => (content,some (byte '@' :: fileName),mode))

/-- Neither the name is known nor a script with its title and this source. -/
def Unseen (b : DebugBackend) (source : Bytes) (name : Option Bytes) : Prop :=
  let key := name.getD (cstr source)
  b.getScriptIndex key = none ∧
    ∀ s ∈ b.scripts, ¬ (s.title = DebugBackend.getFileTitle key ∧ s.source = source)

def Load.around : Load → Option Bytes
  | .luaLoad _ _ _ => none
  | .luaLLoadbuffer buff _ => some buff
  | .luaLLoadfilex _ _ _ _ reopened => reopened

section Registered

variable {b : DebugBackend}

theorem registerScript_isSome_iff (L : LuaState) (source : Bytes) (name : Option Bytes) :
    (b.registerScript L (some source) name false).2.isSome = true ↔ Unseen b source name := by
  unfold DebugBackend.registerScript Unseen
  dsimp only [Option.getD_some]
  split
  · next h => simp [Option.isSome_iff_ne_none.mp h]
  · next h =>
    rw [Option.not_isSome_iff_eq_none] at h
    simp only [h, true_and]
    split
    · next i hi =>
      obtain ⟨hlt,hmatch,-⟩ := List.findIdx?_eq_some_iff_getElem.mp hi
      simp only [Option.isSome_none, Bool.false_eq_true, false_iff, not_forall, not_not]
      exact ⟨b.scripts[i],List.getElem_mem hlt,by simpa using hmatch⟩
    · next hi =>
      have hnone := List.findIdx?_eq_none_iff.mp hi
      simp only [Option.isSome_some, true_iff]
      exact fun s hs => by simpa using hnone s hs

theorem known_registers {L : LuaState} {key code : Bytes} {unavailable : Bool} {b' : DebugBackend}
    (h : Registers b L key code unavailable b') (name : Bytes)
    (hname : name = key ∨ (b.getScriptIndex name).isSome = true) :
    (b'.getScriptIndex name).isSome = true := by
  cases h with
  | known hknown =>
    rcases hname with rfl | hname
    · exact hknown
    · exact hname
  | same i s hnew _ _ =>
    show (List.lookup name (b.nameToScript ++ [(key,i)])).isSome = true
    rw [lookup_snoc _ key name i hnew]
    split
    · rfl
    · next hne => exact hname.resolve_left hne
  | new s hnew _ _ _ _ _ =>
    show (List.lookup name (b.nameToScript ++ [(key,b.scripts.length)])).isSome = true
    rw [lookup_snoc _ key name _ hnew]
    split
    · rfl
    · next hne => exact hname.resolve_left hne

theorem known_others (others : List Call) (name : Bytes) (h : (b.getScriptIndex name).isSome = true) :
    ((others.foldl perform b).getScriptIndex name).isSome = true := by
  induction others generalizing b with
  | nil => exact h
  | cons c others ih => exact ih (known_registers (register_registers c) name (.inr h))

end Registered

def stops (events : List Event) : List Event := events.filter (· ≠ .loadScript)

section Posts

variable {b : DebugBackend} {L : LuaState} {source : Bytes} {name : Option Bytes}

theorem stops_postLoadScript (result : ℕ) :
    stops (postLoadScript true result L source name b).2 = if result ≠ 0 then [.loadError,.break] else [] := by
  show stops ((if (b.registerScript L (some source) name false).2.isSome then [.loadScript] else []) ++
    (if result ≠ 0 then [Event.loadError,Event.break] else [])) = _
  cases (b.registerScript L (some source) name false).2.isSome <;> by_cases hr : result ≠ 0 <;>
    simp [stops, hr]

theorem count_postLoadScript (result : ℕ) :
    (postLoadScript true result L source name b).2.count .loadScript = 1 ↔ Unseen b source name := by
  rw [← registerScript_isSome_iff L]
  show ((if (b.registerScript L (some source) name false).2.isSome then [Event.loadScript] else []) ++
    (if result ≠ 0 then [Event.loadError,Event.break] else [])).count .loadScript = 1 ↔ _
  cases (b.registerScript L (some source) name false).2.isSome <;> by_cases hr : result ≠ 0 <;> simp [hr]

theorem count_postLoadScript_seen (result : ℕ) (h : ¬ Unseen b source name) :
    (postLoadScript true result L source name b).2.count .loadScript = 0 := by
  rw [← registerScript_isSome_iff L, Bool.not_eq_true] at h
  show ((if (b.registerScript L (some source) name false).2.isSome then [Event.loadScript] else []) ++
    (if result ≠ 0 then [Event.loadError,Event.break] else [])).count .loadScript = 0
  rw [h]
  by_cases hr : result ≠ 0 <;> simp [hr]

/-- After a report of a chunk its name is known, whatever else is registered. -/
theorem not_unseen_after (result : ℕ) (others : List Call) (source' : Bytes)
    (hkey : name.getD (cstr source') = name.getD (cstr source)) :
    ¬ Unseen (others.foldl perform (postLoadScript true result L source name b).1) source' name := by
  have hknown : ((postLoadScript true result L source name b).1.getScriptIndex
      (name.getD (cstr source'))).isSome = true :=
    known_registers (registerScript_registers (b := b) L (some source) name false) _ (.inl hkey)
  intro h
  have hlater := known_others others _ hknown
  rw [h.1] at hlater
  cases hlater

end Posts

section Loads

variable (compile : Bytes → Option Bytes → Option Bytes → ℕ)

def Load.name : Load → Option Bytes
  | .luaLoad _ name _ => name
  | .luaLLoadbuffer _ name => name
  | .luaLLoadfilex fileName _ _ _ _ => some (byte '@' :: fileName)

def Load.readError : Load → Bool
  | .luaLLoadfilex _ _ _ readError _ => readError
  | _ => false

def Load.status (l : Load) : ℕ :=
  match l.chunk with
  | none => errFile
  | some (content,name,mode) => compile content name mode

def Load.result (l : Load) : ℕ := if l.readError then errFile else l.status compile

def Load.inside (l : Load) (w : Beside) (L : LuaState) (b : DebugBackend) : DebugBackend × List Event :=
  match l.chunk with
  | none => (b,[])
  | some (content,_,_) =>
    if content ≠ [] then postLoadScript w.inner (l.status compile) L content l.name b else (b,[])

def Load.outside (l : Load) (w : Beside) (L : LuaState) (b : DebugBackend) : List Event :=
  match l.around with
  | none => []
  | some source => (postLoadScript w.outer (l.result compile) L source l.name (w.others.foldl perform b)).2

theorem readAll_single (content : Bytes) : readAll [content] = content := by
  by_cases h : content = [] <;> simp [readAll, h]

theorem luaLoadWorker_eq (attached : Bool) (L : LuaState) (pieces : List Bytes) (name mode : Option Bytes)
    (b : DebugBackend) : luaLoadWorker compile attached L pieces name mode b =
      (if readAll pieces ≠ [] then
        postLoadScript attached (compile (readAll pieces) name mode) L (readAll pieces) name b else (b,[]),
      compile (readAll pieces) name mode) := by
  rw [luaLoadWorker]
  split <;> rfl

/-- The events of a load are those of the two reports. -/
theorem intercept_events (l : Load) (w : Beside) (L : LuaState) (b : DebugBackend) :
    (l.intercept compile w L b).2 =
      (l.inside compile w L b).2 ++ l.outside compile w L (l.inside compile w L b).1 := by
  cases l with
  | luaLoad pieces name mode =>
    rw [Load.intercept, luaLoadWorker_eq]
    exact (List.append_nil _).symm
  | luaLLoadbuffer buff name =>
    rw [Load.intercept, luaLLoadbufferxWorker, luaLoadWorker_eq, readAll_single]
    rfl
  | luaLLoadfilex fileName mode opened readError reopened =>
    cases opened with
    | none =>
      cases reopened with
      | none => rfl
      | some buffer => cases readError <;> rfl
    | some content =>
      simp only [Load.intercept, luaLLoadfilexWorker, luaLoadWorker_eq, readAll_single]
      cases reopened with
      | none => exact (List.append_nil _).symm
      | some buffer => rfl

def Load.InnerReports (l : Load) (w : Beside) : Prop :=
  w.inner = true ∧ ∃ c ∈ l.chunk, c.1 ≠ []

def Load.OuterReports (l : Load) (w : Beside) : Prop := w.outer = true ∧ l.around.isSome = true

def Load.Fails (l : Load) : Prop := l.chunk.isSome = true ∧ l.status compile ≠ 0

def Load.First (l : Load) (b : DebugBackend) : Prop := ∃ c ∈ l.chunk, Unseen b c.1 l.name

/-- A failing chunk stops the program once, and a chunk seen for the first time is announced once. -/
structure Load.Once (l : Load) (w : Beside) (L : LuaState) (b : DebugBackend) : Prop where
  stopped : l.Fails compile → stops (l.intercept compile w L b).2 = [.loadError,.break]
  announced : l.First b → (l.intercept compile w L b).2.count .loadScript = 1

/-- Exactly one of the two interceptors reports a chunk that fails, and a chunk seen for the first
time is reported by that of `lua_load`, or as new by the one around it. -/
structure Load.Single (l : Load) (w : Beside) (b : DebugBackend) : Prop where
  failing : l.Fails compile → (l.InnerReports w ↔ ¬ l.OuterReports w)
  unseen : l.First b → l.InnerReports w ∨
    (w.outer = true ∧ ∃ source ∈ l.around, Unseen (w.others.foldl perform b) source l.name)

variable {compile}

theorem inside_reports {l : Load} {w : Beside} (h : l.InnerReports w) (L : LuaState) (b : DebugBackend) :
    ∃ c ∈ l.chunk, l.inside compile w L b = postLoadScript true (l.status compile) L c.1 l.name b := by
  obtain ⟨hw,c,hc,hne⟩ := h
  refine ⟨c,hc,?_⟩
  rw [Load.inside, hw, Option.mem_def.mp hc]
  exact if_pos hne

theorem inside_silent {l : Load} {w : Beside} (h : ¬ l.InnerReports w) (L : LuaState) (b : DebugBackend) :
    l.inside compile w L b = (b,[]) := by
  rw [Load.inside]
  cases hc : l.chunk with
  | none => rfl
  | some c =>
    by_cases hne : c.1 = []
    · exact if_neg (not_not.mpr hne)
    · have hw : w.inner = false := by
        rw [← Bool.not_eq_true]
        exact fun hw => h ⟨hw,c,hc,hne⟩
      rw [hw]
      exact if_pos hne

theorem outside_reports {l : Load} {w : Beside} {source : Bytes} (hw : w.outer = true)
    (hs : l.around = some source) (L : LuaState) (b : DebugBackend) :
    l.outside compile w L b =
      (postLoadScript true (l.result compile) L source l.name (w.others.foldl perform b)).2 := by
  rw [Load.outside, hs, hw]

theorem outside_silent {l : Load} {w : Beside} (h : ¬ l.OuterReports w) (L : LuaState) (b : DebugBackend) :
    l.outside compile w L b = [] := by
  rw [Load.outside]
  cases hs : l.around with
  | none => rfl
  | some source =>
    have hw : w.outer = false := by
      rw [← Bool.not_eq_true]
      exact fun hw => h ⟨hw,by rw [hs]; rfl⟩
    rw [hw]
    rfl

theorem stops_nil : stops [] = [] := rfl

theorem stops_append (e f : List Event) : stops (e ++ f) = stops e ++ stops f := List.filter_append e f

theorem result_ne_zero {l : Load} (h : l.status compile ≠ 0) : l.result compile ≠ 0 := by
  rw [Load.result]
  split
  · decide
  · exact h

/-- The two reports of a chunk that fails. -/
theorem stops_fails {l : Load} (h : l.Fails compile) (w : Beside) (L : LuaState) (b : DebugBackend) :
    (l.InnerReports w → stops (l.inside compile w L b).2 = [.loadError,.break]) ∧
      (l.OuterReports w → ∀ b, stops (l.outside compile w L b) = [.loadError,.break]) := by
  constructor
  · intro hi
    obtain ⟨c,-,hin⟩ := @inside_reports compile l w hi L b
    rw [hin, stops_postLoadScript, if_pos h.2]
  · rintro ⟨hw,hs⟩ b
    obtain ⟨source,hs⟩ := Option.isSome_iff_exists.mp hs
    rw [outside_reports hw hs, stops_postLoadScript, if_pos (result_ne_zero h.2)]

theorem stopped_iff {l : Load} (h : l.Fails compile) (w : Beside) (L : LuaState) (b : DebugBackend) :
    stops (l.intercept compile w L b).2 = [.loadError,.break] ↔ (l.InnerReports w ↔ ¬ l.OuterReports w) := by
  obtain ⟨hinner,houter⟩ := stops_fails h w L b
  rw [intercept_events, stops_append]
  by_cases hi : l.InnerReports w <;> by_cases ho : l.OuterReports w
  · simp [hi, ho, hinner hi, houter ho]
  · simp [hi, ho, hinner hi, outside_silent ho, stops_nil]
  · simp [hi, ho, houter ho, inside_silent hi, stops_nil]
  · simp [hi, ho, inside_silent hi, outside_silent ho, stops_nil]

/-- The names under which the two interceptors register a chunk are the same. -/
theorem same_key {l : Load} {c : Bytes × Option Bytes × Option Bytes} (hc : c ∈ l.chunk) {source : Bytes}
    (hs : source ∈ l.around) : l.name.getD (cstr source) = l.name.getD (cstr c.1) := by
  cases l with
  | luaLoad pieces name mode => cases hs
  | luaLLoadbuffer buff name =>
    cases hc
    cases hs
    rfl
  | luaLLoadfilex fileName mode opened readError reopened => rfl

theorem announced_iff {l : Load} {b : DebugBackend} (h : l.First b) (w : Beside) (L : LuaState) :
    (l.intercept compile w L b).2.count .loadScript = 1 ↔ l.InnerReports w ∨
      (w.outer = true ∧ ∃ source ∈ l.around, Unseen (w.others.foldl perform b) source l.name) := by
  obtain ⟨c,hc,hunseen⟩ := h
  rw [intercept_events, List.count_append]
  by_cases hi : l.InnerReports w
  · refine iff_of_true ?_ (.inl hi)
    obtain ⟨c',hc',hin⟩ := @inside_reports compile l w hi L b
    obtain rfl : c' = c := Option.some.inj ((Option.mem_def.mp hc').symm.trans hc)
    have hfirst : (l.inside compile w L b).2.count .loadScript = 1 := by
      rw [hin]
      exact (count_postLoadScript _).mpr hunseen
    have hsecond : (l.outside compile w L (l.inside compile w L b).1).count .loadScript = 0 := by
      by_cases ho : l.OuterReports w
      · obtain ⟨source,hs⟩ := Option.isSome_iff_exists.mp ho.2
        rw [outside_reports ho.1 hs, hin]
        exact count_postLoadScript_seen _ (not_unseen_after _ _ _ (same_key hc hs))
      · rw [outside_silent ho]
        rfl
    rw [hfirst, hsecond]
  · rw [inside_silent hi, or_iff_right hi]
    show 0 + (l.outside compile w L b).count .loadScript = 1 ↔ _
    rw [Nat.zero_add]
    by_cases ho : l.OuterReports w
    · obtain ⟨source,hs⟩ := Option.isSome_iff_exists.mp ho.2
      rw [outside_reports ho.1 hs, count_postLoadScript]
      simp [ho.1, hs]
    · rw [outside_silent ho]
      apply iff_of_false (by simp)
      rintro ⟨hw,source,hs,-⟩
      exact ho ⟨hw,by rw [Option.mem_def.mp hs]; rfl⟩

theorem once_iff (l : Load) (w : Beside) (L : LuaState) (b : DebugBackend) :
    l.Once compile w L b ↔ l.Single compile w b := by
  constructor
  · intro h
    exact ⟨fun hf => (stopped_iff hf w L b).mp (h.stopped hf),fun hf => (announced_iff hf w L).mp (h.announced hf)⟩
  · intro h
    exact ⟨fun hf => (stopped_iff hf w L b).mpr (h.failing hf),fun hf => (announced_iff hf w L).mpr (h.unseen hf)⟩

end Loads

section Runs

variable (compile : Bytes → Option Bytes → Option Bytes → ℕ)

inductive Label where
  | load (l : Load) (w : Beside) (L : LuaState)
  | other (c : Call)

structure State where
  backend : DebugBackend
  reported : Prop

def initial : State := ⟨DebugBackend.initial,True⟩

inductive Step : State → Label → State → Prop where
  | load (s : State) (l : Load) (w : Beside) (L : LuaState) :
      Step s (.load l w L) ⟨(l.intercept compile w L s.backend).1,s.reported ∧ l.Once compile w L s.backend⟩
  | other (s : State) (c : Call) : Step s (.other c) {s with backend := perform s.backend c}

def Alone (s : State) : Label → Prop
  | .load l w _ => l.Single compile w s.backend
  | .other _ => True

/-- Every load of a run is reported once exactly if each is reported by one interceptor. -/
theorem reported_along_iff (labels : List Label) :
    Along (Step compile) State.reported initial labels ↔ Meets (Step compile) (Alone compile) initial labels := by
  refine along_iff_meets (fun _ h => h) ?_ ?_ initial labels trivial
  · intro s e t h hs hc
    cases hs with
    | load l w L => exact ⟨h,(once_iff l w L s.backend).mpr hc⟩
    | other c => exact h
  · intro s e t h hs hc ht
    cases hs with
    | load l w L => exact hc ((once_iff l w L s.backend).mp ht.2)
    | other c => exact hc trivial

end Runs

/-- The chunk `x=` does not compile, and its load with `luaL_loadbuffer` stops the program twice. -/
theorem failing_buffer_stops_twice :
    ¬ Along (Step (fun _ _ _ => 3)) State.reported initial
      [.load (.luaLLoadbuffer (text "x=") (some (text "=x"))) ⟨true,true,[]⟩ 1] := by
  intro h
  have hload := (h.2 _ (.load initial _ _ _)).2
  have hstops := hload.stopped ⟨rfl,by decide⟩
  exact absurd hstops (by decide)

end Vecoda.LoadReports

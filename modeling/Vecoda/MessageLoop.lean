import Vecoda.ChunkedFrames
import Vecoda.DecodedTables
import Vecoda.JsonMessages
import Vecoda.Requests

/-!
# The loop of the adapter

`m.update` of message.lua with `m.handle` of request.lua. A handler is called
under pcall; the framing, `json.decode`, the command that is looked up, and the
response to a handler that fails are not, and an error in one of them ends the
adapter. Where the interpreter places what is decoded is a parameter, and so is
which handlers fail. `worker.update` is under pcall too.
-/

set_option autoImplicit false

namespace Vecoda.MessageLoop
open MessagePipe LuaText Framing JsonGrammar JsonDecode JsonAcceptance JsonEncode JsonTrees
open JsonRoundTrip JsonMessages DecodedTables ChunkedFrames

/-- What ends the loop: `stop`, or an error. One of `sub` or of an operator has no text here. -/
inductive End where
  | stopped
  | framing (message : Option String)
  | decoding (message : Bytes)
  | index
  | concatenation
  | encoding (e : EncodeError)

section Handling

variable {N : Type} {n : ℕ}

def names : List (Bytes × Requests.Name) :=
  [(text "initialize",.initializeRequest),(text "setBreakpoints",.setBreakpoints),
    (text "launch",.launch),(text "attach",.attach),(text "configurationDone",.configurationDone),
    (text "setExceptionBreakpoints",.setExceptionBreakpoints),(text "stackTrace",.stackTrace),
    (text "scopes",.scopes),(text "variables",.variables),(text "evaluate",.evaluate),
    (text "threads",.threads),(text "disconnect",.disconnect),(text "terminate",.terminate),
    (text "restart",.restart),(text "continue",.continue),(text "next",.next),
    (text "stepIn",.stepIn),(text "stepOut",.stepOut),(text "pause",.pause),
    (text "exceptionInfo",.exceptionInfo),(text "loadedSources",.loadedSources),
    (text "source",.source)]

def nameOf (cmd : Bytes) : Requests.Name := (names.lookup cmd).getD (.unknown cmd)

/-- A string is indexed by the library `string`, which has none of the names that are asked for. -/
def index (heap : Heap N n) (v : LuaValue N n) (name : Bytes) : Option (LuaValue N n) :=
  match v with
  | .table t => some ((heap t).get (.string name))
  | .string _ => some .nil
  | _ => none

structure Placed (N : Type) where
  size : ℕ
  heap : Heap N size
  pkg : LuaValue N size
  response : Fin size

def stops : Requests.Name → Bool
  | .disconnect => true
  | _ => false

/-- `m.handle`, and the test of `stop` behind it; `failed` tells whether the handler raises. -/
def handle (f : Formats N) (p : Placed N) (failed : Bool) : Option End :=
  match index p.heap p.pkg (text "command") with
  | none => some .index
  | some (.string cmd) =>
    match Requests.handlers (nameOf cmd) with
    | none => none
    | some _ =>
      let stop := if stops (nameOf cmd) then some End.stopped else none
      if failed then
        match encode f p.heap (.table p.response) with
        | .error e => some (.encoding e)
        | .ok _ => stop
      else stop
  -- what is no string names no handler, and only a number can be put into the output
  | some (.number _) => none
  | some _ => some .concatenation

def LuaValue.isNil : LuaValue N n → Bool
  | .nil => true
  | _ => false

def responseFields (seq : N) (cmd : Bytes) (requestSeq : LuaValue N n) (message : Bytes) :
    List (Bytes × LuaValue N n) :=
  [(text "type",.string (text "response")),(text "seq",.number seq),(text "command",.string cmd),
    (text "request_seq",requestSeq),(text "success",.boolean false),
        (text "message",.string message)]

structure Places (f : Formats N) (p : Placed N) (v : Value N) : Prop where
  holds : Holds p.heap p.pkg v
  response : ∀ cmd, index p.heap p.pkg (text "command") = some (.string cmd) →
    ∃ seq message, f.finite seq = true ∧ (p.heap p.response).entries.Perm
      (((responseFields seq cmd ((index p.heap p.pkg (text "seq")).getD .nil) message).filter
        (fun e => !LuaValue.isNil e.2)).map (fun e => (Key.string e.1,e.2)))

def answered (f : Formats N) (failed : Bool) : Value N → Bool
  | .object es =>
    match es.lookup (text "command") with
    | some (.number _) => true
    | some (.string cmd) =>
      (Requests.handlers (nameOf cmd)).isNone || !failed || (es.lookup (text "seq")).all (finite f)
    | _ => false
  | _ => false

def disconnects : Value N → Bool
  | .object es =>
    match es.lookup (text "command") with
    | some (.string cmd) => stops (nameOf cmd)
    | _ => false
  | _ => false

variable {f : Formats N} {heap : Heap N n}

theorem lookup_of_mem {α : Type} {es : List (Bytes × α)} (hd : (es.map Prod.fst).Nodup)
    {e : Bytes × α}
    (he : e ∈ es) : es.lookup e.1 = some e.2 := by
  induction es with
  | nil => cases he
  | cons a es ih =>
    obtain ⟨ha,hes⟩ := List.nodup_cons.mp hd
    rcases List.mem_cons.mp he with rfl | he
    · exact List.lookup_cons_self
    · have hne : e.1 ≠ a.1 := fun heq => ha (heq ▸ List.mem_map_of_mem he)
      rw [List.lookup_cons, beq_false_of_ne hne]
      exact ih hes he

/-- What a table holds under a name is what the tree has there. -/
theorem get_object {t : Fin n} {rows : List (Bytes × LuaValue N n × Value N)}
    (h : (heap t).entries.Perm (rows.map (fun r => (Key.string r.1,r.2.1)))) (name : Bytes) :
    ((heap t).get (.string name) = .nil ∧ (rows.map (fun r => (r.1,r.2.2))).lookup name = none) ∨
      ∃ r ∈ rows, (heap t).get (.string name) = r.2.1 ∧
        (rows.map (fun r => (r.1,r.2.2))).lookup name = some r.2.2 := by
  have hkeys : (rows.map (fun r => (r.1,r.2.2))).map Prod.fst = rows.map Prod.fst := by
    rw [List.map_map]
    rfl
  by_cases hname : name ∈ rows.map Prod.fst
  · right
    have hdistinct : (rows.map Prod.fst).Nodup := by
      have hentries := (h.map Prod.fst).nodup_iff.mp (heap t).distinct
      apply List.Nodup.of_map Key.string
      rw [List.map_map] at hentries ⊢
      exact hentries
    obtain ⟨r,hr,rfl⟩ := List.mem_map.mp hname
    refine ⟨r,hr,
        get_entry _ (Key.string r.1,r.2.1) (h.symm.subset (List.mem_map.mpr ⟨r,hr,rfl⟩)),?_⟩
    exact lookup_of_mem (hkeys ▸ hdistinct) (List.mem_map.mpr ⟨r,hr,rfl⟩)
  · left
    constructor
    · by_contra hne
      obtain ⟨e,he,hkey⟩ := mem_of_get _ hne
      obtain ⟨r,hr,rfl⟩ := List.mem_map.mp (h.subset he)
      injection hkey with hkey
      exact hname (hkey ▸ List.mem_map_of_mem hr)
    · rw [List.lookup_eq_none_iff]
      refine List.forall_mem_map.mpr fun r hr => bne_iff_ne.mpr ?_
      rintro rfl
      exact hname (List.mem_map_of_mem hr)

theorem get_array {t : Fin n} {us : List (LuaValue N n)} (h : (heap t).entries.Perm (numbered us))
    (name : Bytes) : (heap t).get (.string name) = .nil := by
  by_contra hne
  obtain ⟨e,he,hkey⟩ := mem_of_get _ hne
  obtain ⟨i,hi,-⟩ := (numbered_mem us e).mp (h.subset he)
  rw [hkey] at hi
  cases hi

/-- A table with names only is encoded exactly if each of its values is. -/
theorem unfolds_fields {t : Fin n} {fields : List (Bytes × LuaValue N n)} (hne : fields ≠ [])
    (h : (heap t).entries.Perm (fields.map (fun e => (Key.string e.1,e.2)))) :
    (∃ w, Unfolds f heap (.table t) w) ↔ ∀ e ∈ fields, ∃ w, Unfolds f heap e.2 w := by
  constructor
  · rintro ⟨w,hw⟩ e he
    exact unfolds_entry hw (h.symm.subset (List.mem_map.mpr ⟨e,he,rfl⟩))
  · intro hall
    have : Nonempty (Value N) := ⟨.null⟩
    choose! w hw using hall
    have hrows : (heap t).entries.Perm
        ((fields.map (fun e => (e.1,e.2,w e))).map (fun r => (Key.string r.1,r.2.1))) := by
      rw [List.map_map]
      exact h
    exact ⟨_,unfolds_rows (fun hnil => hne (List.map_eq_nil_iff.mp hnil)) hrows
      (List.forall_mem_map.mpr hw)⟩

/-- The response to a request that failed is encoded exactly if the number of the request is. -/
theorem response_encoded {p : Placed N} {v : Value N} (h : Places f p v) {cmd : Bytes}
    (hcmd : index p.heap p.pkg (text "command") = some (.string cmd)) :
    (∃ s, encode f p.heap (.table p.response) = .ok s) ↔
      ∃ w, Unfolds f p.heap ((index p.heap p.pkg (text "seq")).getD .nil) w := by
  obtain ⟨seq,message,hseq,hentries⟩ := h.response cmd hcmd
  have hencode : (∃ s, encode f p.heap (.table p.response) = .ok s) ↔
      ∃ w, Unfolds f p.heap (.table p.response) w := by
    constructor
    · rintro ⟨s,hs⟩
      obtain ⟨w,hw,-⟩ := unfolds_of_encode f p.heap ∅ _ s hs
      exact ⟨w,hw⟩
    · rintro ⟨w,hw⟩
      exact ⟨_,encode_of_unfolds hw ∅ (fun u hu => absurd hu (Finset.notMem_empty u))⟩
  generalize (index p.heap p.pkg (text "seq")).getD .nil = u at hentries ⊢
  rw [hencode, unfolds_fields ?_ hentries]
  · constructor
    · intro hall
      cases u with
      | nil => exact ⟨.null,.nil⟩
      | _ => exact hall (text "request_seq",_) (by simp [responseFields, LuaValue.isNil])
    · rintro ⟨w,hw⟩ e he
      have hmem := List.mem_of_mem_filter he
      simp only [responseFields, List.mem_cons, List.not_mem_nil, or_false] at hmem
      rcases hmem with rfl | rfl | rfl | rfl | rfl | rfl
      · exact ⟨_,.string _⟩
      · exact ⟨_,.number seq hseq⟩
      · exact ⟨_,.string _⟩
      · exact ⟨w,hw⟩
      · exact ⟨_,.boolean _⟩
      · exact ⟨_,.string _⟩
  · simp [responseFields, LuaValue.isNil]

theorem held_unfolds {u : LuaValue N n} {v : Value N} (h : Holds heap u v) :
    (∃ w, Unfolds f heap u w) ↔ finite f v = true :=
  ⟨fun ⟨_,hw⟩ => finite_of_unfolds h hw,fun hv => ⟨_,unfolds_held h hv⟩⟩

/-- A handler that fails has its error sent back, if the number of the request allows it. -/
theorem handle_failed {p : Placed N} {v : Value N} (h : Places f p v) {cmd : Bytes}
    {handler : Requests.Handler}
    (hcmd : index p.heap p.pkg (text "command") = some (.string cmd))
    (hhandler : Requests.handlers (nameOf cmd) = some handler) :
    ((∃ w, Unfolds f p.heap ((index p.heap p.pkg (text "seq")).getD .nil) w) →
        handle f p true = if stops (nameOf cmd) then some .stopped else none) ∧
      ((¬ ∃ w, Unfolds f p.heap ((index p.heap p.pkg (text "seq")).getD .nil) w) →
        ∃ e, handle f p true = some (.encoding e)) := by
  rw [← response_encoded h hcmd, handle, hcmd]
  dsimp only
  rw [hhandler]
  dsimp only
  rw [if_pos rfl]
  cases encode f p.heap (.table p.response) with
  | error e => exact ⟨nofun,fun _ => ⟨e,rfl⟩⟩
  | ok s => exact ⟨fun _ => rfl,fun hnone => absurd ⟨s,rfl⟩ hnone⟩

theorem stops_handled {name : Requests.Name} (h : Requests.handlers name = none) :
    stops name = false := by
  cases name with
  | disconnect => cases h
  | _ => rfl

/-- A command that has no handler, or whose handler does not fail, raises no error; else its error
has to be sent. -/
theorem handle_command {p : Placed N} {v : Value N} (h : Places f p v) (failed : Bool)
    (cmd : Bytes) (sent : Bool) (hcmd : index p.heap p.pkg (text "command") = some (.string cmd))
    (hsent : (∃ w, Unfolds f p.heap ((index p.heap p.pkg (text "seq")).getD .nil) w) ↔
      sent = true) :
    (((Requests.handlers (nameOf cmd)).isNone || !failed || sent) = true →
        handle f p failed = if stops (nameOf cmd) then some .stopped else none) ∧
      (((Requests.handlers (nameOf cmd)).isNone || !failed || sent) = false →
        ∃ e, handle f p failed = some e ∧ e ≠ .stopped) := by
  cases hhandler : Requests.handlers (nameOf cmd) with
  | none =>
    rw [handle, hcmd]
    dsimp only
    rw [hhandler]
    exact ⟨fun _ => (if_neg (Bool.eq_false_iff.mp (stops_handled hhandler))).symm,nofun⟩
  | some handler =>
    cases failed with
    | false =>
      rw [handle, hcmd]
      dsimp only
      rw [hhandler]
      exact ⟨fun _ => rfl,nofun⟩
    | true =>
      obtain ⟨hkept,hraised⟩ := handle_failed h hcmd hhandler
      rw [hsent] at hkept hraised
      rw [Option.isNone_some, Bool.not_true, Bool.false_or, Bool.false_or]
      refine ⟨hkept,fun hnot => ?_⟩
      obtain ⟨e,he⟩ := hraised (by rw [hnot]; exact Bool.false_ne_true)
      exact ⟨.encoding e,he,nofun⟩

/-- The number of a request can be sent back exactly if its tree is finite. -/
theorem seq_unfolds {t : Fin n} {rows : List (Bytes × LuaValue N n × Value N)}
    (h : (heap t).entries.Perm (rows.map (fun r => (Key.string r.1,r.2.1))))
    (hs : ∀ r ∈ rows, Holds heap r.2.1 r.2.2) :
    (∃ w, Unfolds f heap ((index heap (.table t) (text "seq")).getD .nil) w) ↔
      ((rows.map (fun r => (r.1,r.2.2))).lookup (text "seq")).all (finite f) = true := by
  rw [index, Option.getD_some]
  rcases get_object h (text "seq") with ⟨hget,hlookup⟩ | ⟨r,hr,hget,hlookup⟩
  · rw [hget, hlookup]
    exact iff_of_true ⟨.null,.nil⟩ rfl
  · rw [hget, hlookup]
    exact held_unfolds (hs r hr)

/-- A package raises no error exactly if it is answered; only one that disconnects ends the loop
then. -/
theorem handle_eq {p : Placed N} {v : Value N} (h : Places f p v) (failed : Bool) :
    (answered f failed v = true →
        handle f p failed = if disconnects v then some .stopped else none) ∧
      (answered f failed v = false → ∃ e, handle f p failed = some e ∧ e ≠ .stopped) := by
  have hcommand := handle_command h failed
  obtain ⟨size,heap,pkg,response⟩ := p
  have hholds : Holds heap pkg v := h.holds
  clear h
  cases hholds with
  | null | boolean | number => exact ⟨nofun,fun _ => ⟨.index,rfl,nofun⟩⟩
  | string => exact ⟨nofun,fun _ => ⟨.concatenation,rfl,nofun⟩⟩
  | array t rows hmt hentries hs =>
    rw [handle, index]
    dsimp only
    rw [get_array hentries]
    exact ⟨nofun,fun _ => ⟨.concatenation,rfl,nofun⟩⟩
  | object t rows hmt hentries hs =>
    have hindex : index heap (.table t) (text "command") =
        some ((heap t).get (.string (text "command"))) :=
      rfl
    rw [answered, disconnects]
    rcases get_object hentries (text "command") with ⟨hget,hlookup⟩ | ⟨r,hr,hget,hlookup⟩
    · rw [handle, hindex, hget, hlookup]
      exact ⟨nofun,fun _ => ⟨.concatenation,rfl,nofun⟩⟩
    · have hr := hs r hr
      generalize r.2.1 = u at hget hr
      generalize r.2.2 = w at hlookup hr
      rw [hget] at hindex
      rw [hlookup]
      cases hr with
      | null | boolean | array | object =>
        rw [handle, hindex]
        exact ⟨nofun,fun _ => ⟨.concatenation,rfl,nofun⟩⟩
      | number =>
        rw [handle, hindex]
        exact ⟨fun _ => rfl,nofun⟩
      | string cmd => exact hcommand cmd _ hindex (seq_unfolds hentries hs)

end Handling

section Loops

variable {N : Type}

inductive Loop (N : Type) where
  | reads (state : PkgState) (packages : List (Value N))
  | ended (packages : List (Value N)) (how : End)

def Loop.initial : Loop N := .reads .initial []

variable (nums : Numbers N) (handle : ℕ → Value N → Option End)

def follow (r : Sliced) (packages : List (Value N)) : Loop N :=
  match r.outcome with
  | .raised message => .ended packages (.framing message)
  | .returned none => .reads r.state packages
  | .returned (some data) =>
    match decode nums data with
    | .error message => .ended packages (.decoding message)
    | .ok pkg =>
      match handle packages.length pkg with
      | some e => .ended (packages ++ [pkg]) e
      | none => .reads r.state (packages ++ [pkg])

variable (strtod : Bytes → Option Number)

def pass (s : Loop N) (bytes : Bytes) : Loop N :=
  match s with
  | .reads state packages => follow nums handle (slicePkg strtod state bytes) packages
  | .ended packages how => .ended packages how

/-- `m.update` over some reads, and as many passes more that read nothing. -/
def update (chunks : List Bytes) (idles : ℕ) : Loop N :=
  (chunks ++ List.replicate idles []).foldl (pass nums handle strtod) .initial

def Loop.extend (s : Loop N) (more : Bytes) : Loop N :=
  match s with
  | .reads state packages => .reads (ChunkedFrames.extend strtod state more) packages
  | .ended packages how => .ended packages how

/-- The loop after some passes with the whole text there from the start. -/
def whole (stream : Bytes) (passes : ℕ) : Loop N :=
  (idle (pass nums handle strtod) (Loop.extend strtod))^[passes] (Loop.initial.extend strtod stream)

def Loop.Forward : Loop N → Prop
  | .reads state _ => ChunkedFrames.Forward state
  | .ended _ _ => True

def Loop.size : Loop N → ℕ
  | .reads state _ => ChunkedFrames.size state + 1
  | .ended _ _ => 0

variable {nums handle strtod}

theorem follow_extend {r R : Sliced} {packages : List (Value N)} {more : Bytes}
    (houtcome : R.outcome = r.outcome)
    (hstate : ChunkedFrames.extend strtod R.state [] = ChunkedFrames.extend strtod r.state more) :
    (follow nums handle r packages).extend strtod more =
        (follow nums handle R packages).extend strtod [] := by
  rw [follow, follow, houtcome]
  split
  · rfl
  · rw [Loop.extend, Loop.extend, hstate]
  · split
    · rfl
    · split
      · rfl
      · rw [Loop.extend, Loop.extend, hstate]

theorem follow_waits {r : Sliced} (packages : List (Value N)) (h : r.outcome = .returned none) :
    follow nums handle r packages = .reads r.state packages := by
  rw [follow, h]

theorem pass_resumes : Resumes (pass nums handle strtod) (Loop.extend strtod) Loop.Forward where
  cut s chunk more hf := by
    cases s with
    | ended packages how => exact .inl rfl
    | reads state packages =>
      rcases slicePkg_more hf with hwaits | ⟨houtcome,hstate⟩
      · left
        rw [pass, follow_waits packages hwaits, slicePkg_waits hwaits, Loop.extend, Loop.extend,
          extend_extend]
      · right
        rw [idle, Loop.extend, pass, pass, ← slicePkg_extend]
        exact follow_extend houtcome hstate
  idles s _ := by
    cases s with
    | ended packages how => rfl
    | reads state packages =>
      rw [idle]
      conv_rhs => rw [Loop.extend, pass, ← slicePkg_extend]
      rfl

theorem loop_extend_nil (s : Loop N) (more : Bytes) :
    (s.extend strtod more).extend strtod [] = s.extend strtod more := by
  cases s with
  | ended packages how => rfl
  | reads state packages => rw [Loop.extend, Loop.extend, extend_extend, List.append_nil]

/-- A pass without new bytes takes a message, ends the loop, or leaves it as it is for good. -/
theorem idle_smaller {s : Loop N} (hf : s.Forward) (hs : s.extend strtod [] = s) :
    idle (pass nums handle strtod) (Loop.extend strtod) s = s ∨
      (idle (pass nums handle strtod) (Loop.extend strtod) s).size < s.size := by
  cases s with
  | ended packages how => exact .inl rfl
  | reads state packages =>
    have hstate : ChunkedFrames.extend strtod state [] = state := by
      injection hs
    rw [idle, pass, follow]
    cases houtcome : (slicePkg strtod state []).outcome with
    | raised message => exact .inr (Nat.succ_pos _)
    | returned pkg =>
      cases pkg with
      | none =>
        left
        dsimp only
        rw [slicePkg_waits houtcome, hstate]
        exact hs
      | some data =>
        right
        dsimp only
        have hlt := slicePkg_shorter hf houtcome hstate
        split
        · exact Nat.succ_pos _
        · split
          · exact Nat.succ_pos _
          · exact Nat.succ_lt_succ hlt

theorem idle_stuck (k : ℕ) (s : Loop N) (hk : s.size ≤ k) (hs : s.extend strtod [] = s)
    (hf : ∀ m, ((idle (pass nums handle strtod) (Loop.extend strtod))^[m] s).Forward) :
    idle (pass nums handle strtod) (Loop.extend strtod)
        ((idle (pass nums handle strtod) (Loop.extend strtod))^[k] s) =
      (idle (pass nums handle strtod) (Loop.extend strtod))^[k] s := by
  induction k generalizing s with
  | zero =>
    cases s with
    | ended packages how => rfl
    | reads state packages => exact absurd hk (Nat.not_succ_le_zero _)
  | succ k ih =>
    have hcases : idle (pass nums handle strtod) (Loop.extend strtod) s = s ∨ _ :=
      idle_smaller (hf 0) hs
    rcases hcases with hsame | hlt
    · rw [Function.iterate_fixed hsame, hsame]
    · rw [Function.iterate_succ_apply]
      exact ih _ (Nat.le_of_lt_succ (hlt.trans_le hk)) (loop_extend_nil _ []) fun m => hf (m + 1)

/-- The loop on the whole text is at its end after as many passes as the text has bytes, and one. -/
theorem whole_stuck {stream : Bytes} (hf : ∀ m, (whole nums handle strtod stream m).Forward)
    (k : ℕ) :
    whole nums handle strtod stream (stream.length + 1 + k) =
        whole nums handle strtod stream (stream.length + 1) := by
  have hsize : ((Loop.initial : Loop N).extend strtod stream).size ≤ stream.length + 1 := by
    refine Nat.succ_le_succ ((size_extend .initial stream).trans ?_)
    rw [ChunkedFrames.size]
    simp [PkgState.initial, PkgState.buffer]
  have hstuck := idle_stuck (stream.length + 1) _ hsize (loop_extend_nil _ _) hf
  rw [whole, whole, Nat.add_comm, Function.iterate_add_apply]
  exact Function.iterate_fixed hstuck k

/-- A pass that finds the loop at its end leaves it in the state that more bytes would extend. -/
theorem pass_stuck {s : Loop N}
    (hidle : idle (pass nums handle strtod) (Loop.extend strtod) (s.extend strtod []) =
    s.extend strtod []) (hf : (s.extend strtod []).Forward) :
    pass nums handle strtod s [] = s.extend strtod [] := by
  have hpass := (pass_resumes.idles s hf).trans hidle
  cases s with
  | ended packages how => rfl
  | reads state packages =>
    rw [Loop.extend, pass, follow] at hpass
    rw [pass, follow]
    cases houtcome : (slicePkg strtod state []).outcome with
    | raised message =>
      rw [houtcome] at hpass
      cases hpass
    | returned pkg =>
      cases pkg with
      | none =>
        dsimp only
        rw [slicePkg_waits houtcome]
        rfl
      | some data =>
        exfalso
        rw [houtcome] at hpass
        dsimp only at hpass
        split at hpass
        · cases hpass
        · split at hpass
          · cases hpass
          · injection hpass with _ hpackages
            have := congrArg List.length hpackages
            rw [List.length_append, List.length_singleton] at this
            omega

theorem update_whole (chunks : List Bytes) (idles : ℕ) (hidles : chunks.flatten.length + 1 < idles)
    (hf : ∀ m, (whole nums handle strtod chunks.flatten m).Forward) :
    update nums handle strtod chunks idles =
      whole nums handle strtod chunks.flatten (chunks.flatten.length + 1) := by
  obtain ⟨n,rfl⟩ : ∃ n, idles = chunks.flatten.length + 1 + n + 1 :=
    ⟨idles - (chunks.flatten.length + 2),by omega⟩
  obtain ⟨m,hm⟩ := foldl_text pass_resumes chunks (chunks.flatten.length + 1 + n) .initial hf
  have hbefore :
      (update nums handle strtod chunks (chunks.flatten.length + 1 + n)).extend strtod [] =
      whole nums handle strtod chunks.flatten (chunks.flatten.length + 1) := by
    rw [← whole_stuck hf (n + m), ← Nat.add_assoc]
    exact hm
  have hpass :
      pass nums handle strtod (update nums handle strtod chunks (chunks.flatten.length + 1 + n))
          [] =
      (update nums handle strtod chunks (chunks.flatten.length + 1 + n)).extend strtod [] := by
    refine pass_stuck ?_ ?_
    · rw [hbefore]
      have hnext := whole_stuck hf 1
      rw [whole, Function.iterate_succ_apply'] at hnext
      exact hnext
    · rw [hbefore]
      exact hf _
  rw [← hbefore, ← hpass, update, List.replicate_succ', ← List.append_assoc, List.foldl_append]
  rfl

def framed (strtod : Bytes → Option Number) (bodies : List Bytes) : PkgState :=
  ChunkedFrames.extend strtod .initial (frames bodies)

theorem framed_nil : framed strtod [] = .done := rfl

theorem framed_cons (body : Bytes) (bodies : List Bytes) :
    framed strtod (body::bodies) = ⟨some (body ++ frames bodies),some (.integer body.length)⟩ := by
  have hannounced : announced strtod _ = some (.integer body.length,body ++ frames bodies) :=
    announced_header body.length (body ++ frames bodies)
  rw [← List.append_assoc, ← frames_cons] at hannounced
  exact extend_announced (s := .initial) rfl hannounced

def served (nums : Numbers N) (handle : ℕ → Value N → Option End) :
    List Bytes → List (Value N) → Loop N
  | [], packages => .reads .done packages
  | body::bodies, packages =>
    match decode nums body with
    | .error message => .ended packages (.decoding message)
    | .ok pkg =>
      match handle packages.length pkg with
      | some e => .ended (packages ++ [pkg]) e
      | none => served nums handle bodies (packages ++ [pkg])

theorem idle_framed (body : Bytes) (bodies : List Bytes) (packages : List (Value N)) :
    idle (pass nums handle strtod) (Loop.extend strtod)
        (.reads (framed strtod (body::bodies)) packages) =
      match decode nums body with
      | .error message => .ended packages (.decoding message)
      | .ok pkg =>
        match handle packages.length pkg with
        | some e => .ended (packages ++ [pkg]) e
        | none => .reads (framed strtod bodies) (packages ++ [pkg]) := by
  have hslice : slicePkg strtod (framed strtod (body::bodies)) [] =
      ⟨⟨some (frames bodies),none⟩,[],.returned (some body)⟩ := by
    rw [framed_cons, slicePkg_pending _ [] rfl, List.append_nil]
    exact takePkg_full body (frames bodies)
  have hrest : ChunkedFrames.extend strtod ⟨some (frames bodies),none⟩ [] =
      framed strtod bodies := by
    rw [framed, ChunkedFrames.extend, ChunkedFrames.extend]
    simp only [PkgState.buffer, PkgState.initial, Option.getD_some, Option.getD_none,
      List.append_nil, List.nil_append]
  rw [idle, pass, follow, hslice]
  dsimp only
  cases decode nums body with
  | error message => rfl
  | ok pkg =>
    dsimp only
    cases handle packages.length pkg with
    | some e => rfl
    | none => exact congrArg (fun state => Loop.reads state (packages ++ [pkg])) hrest

theorem idle_done (packages : List (Value N)) :
    idle (pass nums handle strtod) (Loop.extend strtod) (.reads .done packages) =
        .reads .done packages := rfl

theorem forward_framed (m : ℕ) (bodies : List Bytes) (packages : List (Value N)) :
    ((idle (pass nums handle strtod) (Loop.extend strtod))^[m]
        (.reads (framed strtod bodies) packages)).Forward := by
  have hended (m : ℕ) (packages : List (Value N)) (e : End) :
      (idle (pass nums handle strtod) (Loop.extend strtod))^[m] (.ended packages e) =
          .ended packages e :=
    Function.iterate_fixed rfl m
  induction m generalizing bodies packages with
  | zero =>
    cases bodies with
    | nil => exact fun l hl => nomatch hl
    | cons body bodies =>
      intro l hl
      rw [framed_cons] at hl
      cases hl
      exact decide_eq_false (not_lt.mpr (Int.natCast_nonneg body.length))
  | succ m ih =>
    rw [Function.iterate_succ_apply]
    cases bodies with
    | nil =>
      have hdone : framed strtod [] = .done := framed_nil
      rw [hdone, idle_done, ← hdone]
      exact ih [] packages
    | cons body bodies =>
      rw [idle_framed]
      cases decode nums body with
      | error message =>
        dsimp only
        rw [hended]
        trivial
      | ok pkg =>
        dsimp only
        cases handle packages.length pkg with
        | some e =>
          dsimp only
          rw [hended]
          trivial
        | none => exact ih bodies (packages ++ [pkg])

/-- However a text is cut, the adapter comes to the same packages and to the same end, unless a
header announces a negative length. -/
theorem update_chunking (chunks chunks' : List Bytes) (h : chunks.flatten = chunks'.flatten)
    (idles idles' : ℕ)
    (hidles : chunks.flatten.length + 1 < idles) (hidles' : chunks.flatten.length + 1 < idles')
    (hf : ∀ m, (whole nums handle strtod chunks.flatten m).Forward) :
    update nums handle strtod chunks idles = update nums handle strtod chunks' idles' := by
  rw [update_whole chunks idles hidles hf]
  rw [h] at hidles' hf ⊢
  exact (update_whole chunks' idles' hidles' hf).symm

/-- A message without a command, cut behind its first byte. -/
theorem oneMessage_chunking :
    update naturalNumbers (fun _ _ => some .concatenation) (fun _ => none)
        [(frames [seqText]).take 1,(frames [seqText]).drop 1] ((frames [seqText]).length + 2) =
      update naturalNumbers (fun _ _ => some .concatenation) (fun _ => none) [frames [seqText]]
        ((frames [seqText]).length + 2) := by
  have hcut : [(frames [seqText]).take 1,(frames [seqText]).drop 1].flatten = frames [seqText] := by
    rw [List.flatten_cons, List.flatten_singleton, List.take_append_drop]
  refine update_chunking _ _ (hcut.trans (List.flatten_singleton).symm) _ _ ?_ ?_ fun m => ?_
  · rw [hcut]
    exact Nat.lt_succ_self _
  · rw [hcut]
    exact Nat.lt_succ_self _
  · rw [hcut]
    exact forward_framed m [seqText] []

theorem iterate_framed (k : ℕ) (bodies : List Bytes) (packages : List (Value N))
    (hk : bodies.length ≤ k) :
    (idle (pass nums handle strtod) (Loop.extend strtod))^[k]
        (.reads (framed strtod bodies) packages) =
      served nums handle bodies packages := by
  induction bodies generalizing k packages with
  | nil => exact Function.iterate_fixed (idle_done packages) k
  | cons body bodies ih =>
    obtain ⟨k,rfl⟩ : ∃ j, k = j + 1 := ⟨k - 1,by rw [List.length_cons] at hk; omega⟩
    rw [Function.iterate_succ_apply, idle_framed, served]
    cases decode nums body with
    | error message => exact Function.iterate_fixed rfl k
    | ok pkg =>
      dsimp only
      cases handle packages.length pkg with
      | some e => exact Function.iterate_fixed rfl k
      | none => exact ih k (packages ++ [pkg]) (Nat.le_of_succ_le_succ hk)

theorem frames_longer (bodies : List Bytes) : bodies.length ≤ (frames bodies).length := by
  induction bodies with
  | nil => exact Nat.zero_le _
  | cons body bodies ih =>
    have := header_length body.length
    rw [frames_cons]
    simp only [List.length_append, List.length_cons]
    omega

theorem update_framed (bodies chunks : List Bytes) (hchunks : chunks.flatten = frames bodies)
    (idles : ℕ)
    (hidles : (frames bodies).length + 1 < idles) :
    update nums handle strtod chunks idles = served nums handle bodies [] := by
  have hf (m : ℕ) : (whole nums handle strtod chunks.flatten m).Forward := by
    rw [hchunks]
    exact forward_framed m bodies []
  rw [← hchunks] at hidles
  rw [update_whole chunks idles hidles hf, hchunks]
  exact iterate_framed _ bodies [] ((frames_longer bodies).trans (Nat.le_succ _))

section Survival

variable {f : Formats N} {place : ℕ → Value N → Placed N} (failed : ℕ → Bool)

/-- The body is a JSON text, and what it denotes raises no error. -/
def Accepted (nums : Numbers N) (f : Formats N) (failed : Bool) (body : Bytes) : Prop :=
  ∃ v, Document nums.meaning true body v ∧ answered f failed v = true

def Disconnects (nums : Numbers N) (body : Bytes) : Prop :=
  ∃ v, Document nums.meaning true body v ∧ disconnects v = true

/-- What was decoded lies in the heap of the interpreter, for the package of each number. -/
def Placing (nums : Numbers N) (f : Formats N) (place : ℕ → Value N → Placed N) (count : ℕ)
    (bodies : List Bytes) : Prop :=
  ∀ i (hi : i < bodies.length) v, Document nums.meaning true bodies[i] v →
      Places f (place (count + i) v) v

theorem placing_append {count : ℕ} {bodies bodies' : List Bytes}
    (h : Placing nums f place count (bodies ++ bodies')) :
    Placing nums f place (count + bodies.length) bodies' := by
  intro i hi v hv
  have hlen : bodies.length + i < (bodies ++ bodies').length := by
    rw [List.length_append]
    omega
  rw [Nat.add_assoc]
  apply h (bodies.length + i) hlen v
  rw [List.getElem_append_right (Nat.le_add_right _ _)]
  simpa using hv

def handler (f : Formats N) (place : ℕ → Value N → Placed N) (failed : ℕ → Bool) (i : ℕ)
    (v : Value N) :
    Option End :=
  MessageLoop.handle f (place i v) (failed i)

theorem handler_eq {body : Bytes} {bodies : List Bytes} {packages : List (Value N)} {v : Value N}
    (h : Placing nums f place packages.length (body::bodies))
    (hv : Document nums.meaning true body v) :
    (answered f (failed packages.length) v = true →
        handler f place failed packages.length v = if disconnects v then some .stopped else none) ∧
      (answered f (failed packages.length) v = false →
        ∃ e, handler f place failed packages.length v = some e ∧ e ≠ .stopped) :=
  handle_eq (h 0 (Nat.succ_pos _) v hv) (failed packages.length)

theorem document_unique {body : Bytes} {v w : Value N} (hv : Document nums.meaning true body v)
    (hw : Document nums.meaning true body w) : v = w := by
  have h := (decode_document nums body v hv).symm.trans (decode_document nums body w hw)
  injection h

theorem served_accepted {body : Bytes} {bodies : List Bytes} {packages : List (Value N)}
    (h : Placing nums f place packages.length (body::bodies))
    (haccepted : Accepted nums f (failed packages.length) body) (hstays : ¬ Disconnects nums body) :
    ∃ v, Document nums.meaning true body v ∧
        served nums (handler f place failed) (body::bodies) packages =
      served nums (handler f place failed) bodies (packages ++ [v]) := by
  obtain ⟨v,hv,hanswered⟩ := haccepted
  have hhandle := (handler_eq failed h hv).1 hanswered
  rw [if_neg (fun hd => hstays ⟨v,hv,hd⟩)] at hhandle
  refine ⟨v,hv,?_⟩
  rw [served, decode_document nums body v hv]
  dsimp only
  rw [hhandle]

/-- What is refused, or disconnects, ends the loop. -/
theorem served_ends {body : Bytes} {bodies : List Bytes} {packages : List (Value N)}
    (h : Placing nums f place packages.length (body::bodies))
    (hends : Accepted nums f (failed packages.length) body → Disconnects nums body) :
    ∃ last how, served nums (handler f place failed) (body::bodies) packages =
        .ended (packages ++ last) how ∧
      last.length ≤ 1 ∧ List.Forall₂ (Document nums.meaning true) ([body].take last.length) last ∧
      (how = .stopped ↔ Accepted nums f (failed packages.length) body) := by
  rw [served]
  cases hd : decode nums body with
  | error message =>
    refine ⟨[],.decoding message,by rw [List.append_nil],Nat.zero_le _,.nil,nofun,?_⟩
    rintro ⟨v,hv,-⟩
    rw [decode_document nums body v hv] at hd
    cases hd
  | ok v =>
    have hv := document_of_decode nums body v hd
    obtain ⟨hanswered,hraised⟩ := handler_eq failed h hv
    dsimp only
    cases ha : answered f (failed packages.length) v with
    | true =>
      obtain ⟨w,hw,hdisconnects⟩ := hends ⟨v,hv,ha⟩
      rw [hanswered ha, if_pos (document_unique hw hv ▸ hdisconnects)]
      exact ⟨[v],.stopped,rfl,le_rfl,.cons hv .nil,fun _ => ⟨v,hv,ha⟩,fun _ => rfl⟩
    | false =>
      obtain ⟨e,he,hne⟩ := hraised ha
      rw [he]
      refine ⟨[v],e,rfl,le_rfl,.cons hv .nil,fun heq => absurd heq hne,?_⟩
      rintro ⟨w,hw,hanswered⟩
      rw [document_unique hw hv, ha] at hanswered
      cases hanswered

theorem served_prefix (good rest : List Bytes) (packages : List (Value N))
    (h : Placing nums f place packages.length (good ++ rest))
    (hgood : ∀ i (hi : i < good.length),
      Accepted nums f (failed (packages.length + i)) good[i] ∧ ¬ Disconnects nums good[i]) :
    ∃ vs, List.Forall₂ (Document nums.meaning true) good vs ∧
      served nums (handler f place failed) (good ++ rest) packages =
        served nums (handler f place failed) rest (packages ++ vs) := by
  induction good generalizing packages with
  | nil => exact ⟨[],.nil,by rw [List.append_nil]; rfl⟩
  | cons body good ih =>
    rw [List.cons_append] at h ⊢
    obtain ⟨haccepted,hstays⟩ := hgood 0 (Nat.succ_pos _)
    obtain ⟨v,hv,hserved⟩ := served_accepted failed h haccepted hstays
    have hlen : (packages ++ [v]).length = packages.length + 1 := by simp
    have htail : Placing nums f place (packages.length + 1) (good ++ rest) :=
      placing_append (show Placing nums f place packages.length ([body] ++ (good ++ rest)) from h)
    obtain ⟨vs,hvs,hrest⟩ := ih (packages ++ [v]) (by rw [hlen]; exact htail) (fun i hi => by
      have := hgood (i + 1) (Nat.succ_lt_succ hi)
      rw [← Nat.add_assoc, Nat.add_right_comm] at this
      rw [hlen]
      exact this)
    refine ⟨v::vs,.cons hv hvs,?_⟩
    rw [hserved, hrest, List.append_assoc]
    rfl

/-- The first message that is refused, or disconnects, ends the loop after all that came before
it. -/
theorem served_first {bodies : List Bytes} (h : Placing nums f place 0 bodies) {k : ℕ}
    (hk : k < bodies.length)
    (hgood : ∀ i (hi : i < bodies.length), i < k →
      Accepted nums f (failed i) bodies[i] ∧ ¬ Disconnects nums bodies[i])
    (hends : Accepted nums f (failed k) bodies[k] → Disconnects nums bodies[k]) :
    ∃ packages how, served nums (handler f place failed) bodies [] = .ended packages how ∧
      k ≤ packages.length ∧ packages.length ≤ k + 1 ∧
      List.Forall₂ (Document nums.meaning true) (bodies.take packages.length) packages ∧
      (how = .stopped ↔ Accepted nums f (failed k) bodies[k]) := by
  have hsplit : bodies = bodies.take k ++ bodies[k]::bodies.drop (k + 1) := by simp
  have htake : (bodies.take k).length = k := List.length_take_of_le hk.le
  have hplaces : Placing nums f place 0 (bodies.take k ++ bodies[k]::bodies.drop (k + 1)) :=
    hsplit ▸ h
  obtain ⟨vs,hvs,hserved⟩ :=
    served_prefix failed (bodies.take k) (bodies[k]::bodies.drop (k + 1)) [] hplaces
    (fun i hi => by
      rw [htake] at hi
      have := hgood i (hi.trans hk) hi
      simpa using this)
  rw [← hsplit, List.nil_append] at hserved
  have hlen : vs.length = k := hvs.length_eq ▸ htake
  have hrest : Placing nums f place vs.length (bodies[k]::bodies.drop (k + 1)) := by
    have := placing_append hplaces
    rw [htake, Nat.zero_add] at this
    rw [hlen]
    exact this
  obtain ⟨last,how,hlast,hone,hdocument,hhow⟩ :=
    served_ends failed hrest (by rw [hlen]; exact hends)
  have hpackages : bodies.take (vs ++ last).length =
      bodies.take k ++ [bodies[k]].take last.length := by
    rw [List.length_append, hlen, List.take_add, List.drop_eq_getElem_cons hk]
    rcases Nat.le_one_iff_eq_zero_or_eq_one.mp hone with hzero | hone
    · rw [hzero]
      rfl
    · rw [hone]
      rfl
  refine ⟨vs ++ last,how,hserved.trans hlast,?_,?_,?_,?_⟩
  · rw [List.length_append]
    omega
  · rw [List.length_append]
    omega
  · rw [hpackages]
    exact List.rel_append hvs hdocument
  · rw [hlen] at hhow
    exact hhow

/-- The adapter lives through a stream of messages exactly if each of them is accepted and none
disconnects. Else the first that does not let it go on ends it, all messages before it having been
handled, and it ends by an error exactly if this message is not accepted. -/
theorem update_survives (bodies chunks : List Bytes) (hchunks : chunks.flatten = frames bodies)
    (h : Placing nums f place 0 bodies) (idles : ℕ) (hidles : (frames bodies).length + 1 < idles) :
    ((∃ packages, update nums (handler f place failed) strtod chunks idles = .reads .done packages ∧
        List.Forall₂ (Document nums.meaning true) bodies packages) ↔
      ∀ i (hi : i < bodies.length), Accepted nums f (failed i) bodies[i] ∧
          ¬ Disconnects nums bodies[i]) ∧
    ∀ k (hk : k < bodies.length), (∀ i (hi : i < bodies.length), i < k →
        Accepted nums f (failed i) bodies[i] ∧ ¬ Disconnects nums bodies[i]) →
      (Accepted nums f (failed k) bodies[k] → Disconnects nums bodies[k]) →
      ∃ packages how, update nums (handler f place failed) strtod chunks idles =
          .ended packages how ∧
        k ≤ packages.length ∧ packages.length ≤ k + 1 ∧
        List.Forall₂ (Document nums.meaning true) (bodies.take packages.length) packages ∧
        (how = .stopped ↔ Accepted nums f (failed k) bodies[k]) := by
  rw [update_framed bodies chunks hchunks idles hidles]
  refine ⟨⟨fun ⟨packages,hreads,_⟩ => ?_,fun hall => ?_⟩,fun k hk hgood hends =>
      served_first failed h hk hgood hends⟩
  · by_contra hnot
    push Not at hnot
    classical
    -- the first message that does not let the adapter go on
    obtain ⟨hi,hends⟩ := Nat.find_spec hnot
    obtain ⟨_,_,hended,_⟩ := served_first failed h hi (fun i hi hlt => by
      have := Nat.find_min hnot hlt
      push Not at this
      exact this hi) hends
    rw [hended] at hreads
    cases hreads
  · obtain ⟨vs,hvs,hserved⟩ := served_prefix failed bodies [] [] (by rw [List.append_nil]; exact h)
      (fun i hi => by simpa using hall i hi)
    rw [List.append_nil, List.nil_append] at hserved
    exact ⟨vs,hserved,hvs⟩

end Survival

end Loops

section Disconnecting

/-- A request without arguments, on which the handler fails. -/
def request (cmd : Bytes) : Value ℕ := .object [(text "command",.string cmd)]

def requestText (cmd : Bytes) : Bytes := write naturalFormats (request cmd)

def placedRequest (cmd : Bytes) : Placed ℕ where
  size := 2
  heap
    | 0 => ⟨[(.string (text "command"),.string cmd)],false,List.nodup_singleton _,by simp⟩
    | 1 => ⟨[(.string (text "type"),.string (text "response")),(.string (text "seq"),.number 1),
        (.string (text "command"),.string cmd),(.string (text "success"),.boolean false),
        (.string (text "message"),.string (text "lost"))],false,
          by simp only [List.map_cons, List.map_nil]; decide,by simp⟩
  pkg := .table 0
  response := 1

variable (cmd : Bytes)

theorem request_holds : Holds (placedRequest cmd).heap (placedRequest cmd).pkg (request cmd) :=
  .object (0 : Fin 2) [(text "command",.string cmd,.string cmd)] rfl (List.Perm.refl _)
    (List.forall_mem_singleton.mpr (.string _))

theorem request_places : Places naturalFormats (placedRequest cmd) (request cmd) := by
  refine ⟨request_holds cmd,fun cmd' hcmd => ⟨1,text "lost",rfl,?_⟩⟩
  have hget : index (placedRequest cmd).heap (placedRequest cmd).pkg (text "command") =
      some (.string cmd) := rfl
  rw [hget] at hcmd
  cases hcmd
  exact List.Perm.refl _

theorem request_document (h : clear (request cmd) = true) :
    Document naturalNumbers.meaning true (requestText cmd) (request cmd) := by
  have hunfolds : Unfolds naturalFormats (placedRequest cmd).heap (placedRequest cmd).pkg
      (request cmd) :=
    .object (0 : Fin 2) [(text "command",.string cmd)] [.string cmd] (by simp)
      ⟨List.Perm.refl _,List.pairwise_singleton _ _⟩ (.cons _ _ _ _ (.string _) .nil)
  exact document_of_decode naturalNumbers _ _
    ((decode_written naturals_faithful hunfolds _).mpr ⟨rfl,((received_iff hunfolds).mpr h).symm⟩)

def requested (i : ℕ) : Bytes := if i = 0 then text "threads" else text "disconnect"

theorem requested_document (i : ℕ) :
    Document naturalNumbers.meaning true (requestText (requested i)) (request (requested i)) := by
  apply request_document (requested i)
  unfold requested
  split <;> decide

theorem requests_placed : Placing naturalNumbers naturalFormats
    (fun i _ => placedRequest (requested i)) 0 ([0,1].map (fun i => requestText (requested i))) := by
  intro i hi v hv
  have hbody : ([0,1].map (fun i => requestText (requested i)))[i] = requestText (requested i) := by
    match i, hi with
    | 0, _ => rfl
    | 1, _ => rfl
  rw [hbody] at hv
  obtain rfl : v = request (requested i) := document_unique hv (requested_document i)
  rw [Nat.zero_add]
  exact request_places (requested i)

/-- The handlers of two requests fail: the first response is sent and the loop goes on, with the
second one it ends. -/
theorem disconnect_ends :
    ∃ packages how,
        update naturalNumbers
          (handler naturalFormats (fun i _ => placedRequest (requested i)) (fun _ => true))
          (fun _ => none) [frames ([0,1].map (fun i => requestText (requested i)))]
          ((frames ([0,1].map (fun i => requestText (requested i)))).length + 2) =
            .ended packages how ∧
      1 ≤ packages.length ∧ packages.length ≤ 1 + 1 ∧
      List.Forall₂ (Document naturalNumbers.meaning true)
        (([0,1].map (fun i => requestText (requested i))).take packages.length) packages ∧
      (how = .stopped ↔ Accepted naturalNumbers naturalFormats true (requestText (requested 1))) := by
  refine (update_survives (fun _ => true) _ _ List.flatten_singleton requests_placed _
    (Nat.lt_succ_self _)).2 1 (by decide) ?_ ?_
  · intro i hi hlt
    obtain rfl : i = 0 := Nat.lt_one_iff.mp hlt
    refine ⟨⟨request (requested 0),requested_document 0,by decide⟩,?_⟩
    rintro ⟨v,hv,hstop⟩
    obtain rfl : v = request (requested 0) := document_unique hv (requested_document 0)
    exact absurd hstop (by decide)
  · exact fun _ => ⟨request (requested 1),requested_document 1,by decide⟩

end Disconnecting

end Vecoda.MessageLoop

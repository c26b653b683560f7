import Vecoda.EventStream

/-!
# Agreement of the two ends of the event stream

Every event whose reader asks for the widths that were written is taken whole
by one `update`. The exception is the handle of the `Break` after `Exception`
and `LoadError`, read as 32 bits whatever the pointer size, and an
`ExpandTableRet` whose result makes `parseEvaluateResult` raise before the
reference is read.
-/

set_option autoImplicit false

namespace Vecoda.EventAgreement
open MessagePipe LuaText XmlSimple Channel EventStream EventStream.Event

variable {p : PointerSize} (τ : Timing)

theorem frames_of_eq_iff (f g : Bytes → Bytes) (frames : List Frame) :
    frames.map (RawFrame.of f) = frames.map (RawFrame.of g) ↔
      ∀ s ∈ frames.map Frame.name, f s.bytes = g s.bytes := by
  simp [List.map_inj_left, RawFrame.of]

theorem fieldsWith_eq_iff (f g : Bytes → Bytes) (e : Event p) :
    e.fieldsWith f = e.fieldsWith g ↔ ∀ s ∈ e.strings, f s.bytes = g s.bytes := by
  cases e <;> simp only [Event.fieldsWith, Event.strings, Incoming.loadScript.injEq,
    Incoming.message.injEq, Incoming.nameVM.injEq, Incoming.break.injEq, Incoming.evaluateRet.injEq,
    Incoming.expandTableRet.injEq, Incoming.fault.injEq, RawStack.of, RawStack.mk.injEq,
    frames_of_eq_iff, Option.some.injEq, List.mem_cons, List.not_mem_nil, forall_eq_or_imp, true_and,
    and_true, false_imp_iff, implies_true]

theorem takes_readFrame (frame : Frame) :
    Takes (readFrame τ) (writeFrame frame) (RawFrame.of wireText frame) := by
  apply takes_bind (takes_readUInt32 τ _ frame.scriptIndex.toNat_lt)
  apply takes_bind (takes_readUInt32 τ _ frame.line.toNat_lt)
  rw [← List.append_nil (writeString _)]
  apply takes_bind (takes_readString τ _ frame.name.noNul)
  simp only [reduceCtorEq, and_false, if_false]
  exact takes_pure _

theorem takes_readFrames (frames : List Frame) :
    Takes (readFrames τ frames.length) (frames.flatMap writeFrame)
      (frames.map (RawFrame.of wireText)) := by
  induction frames with
  | nil => exact takes_pure _
  | cons frame frames ih =>
    rw [List.flatMap_cons]
    apply takes_bind (takes_readFrame τ frame)
    rw [← List.append_nil (frames.flatMap writeFrame)]
    exact takes_bind ih (takes_pure _)

theorem takes_readStack (stack : BreakStack) :
    Takes (readStack τ) (writeStack stack) (RawStack.of wireText stack) := by
  apply takes_bind (takes_readUInt32 τ _ stack.reason.toNat_lt)
  apply takes_bind (takes_readUInt32 τ _ stack.fits)
  rw [← List.append_nil (stack.frames.flatMap writeFrame)]
  exact takes_bind (takes_readFrames τ stack.frames) (takes_pure _)

theorem takes_nReadUInt32 (v : ℕ) (hv : v < 2^32) :
    Takes (nReadUInt32 τ) (writeUInt32 v) (some v) := by
  intro port rest hp
  have hne : port.pipe ≠ [] := by rw [hp]; simp [writeUInt32, write, leBytes]
  rw [nReadUInt32, if_neg hne]
  exact takes_readUInt32 τ v hv port rest hp

theorem takes_update (id : ℕ) (hid : id < 2^32) (vm : Handle p) (ms : List Bytes) (inc : Incoming)
    (hb : Takes (readBody τ id vm) ms inc) : Takes (update τ p) (header id vm ++ ms) (some inc) := by
  rw [header, List.append_assoc]
  apply takes_bind (takes_nReadUInt32 τ id hid)
  apply takes_bind (takes_readUInt τ p vm.val vm.isLt)
  rw [← List.append_nil ms]
  exact takes_bind hb (takes_pure _)

/-- `parseEvaluateResult` raises: it reports an error whose document has no element. -/
def Unreadable (success : Bool) (result : Bytes) : Prop :=
  parseEvaluateResult (some success) (some result) = .error .raised

/-- Every read of `update` asks for the width that was written, and reaches the
last field. -/
def SameWidths : Event p → Prop
  | .fault _ _ _ _ => p = .x86
  | .expandTableRet _ _ _ success result _ => ¬ Unreadable success (wireText result.bytes)
  | _ => True

theorem readBody_fault (kind : Fault) (nvm : ℕ) :
    readBody τ kind.id nvm = readString τ >>= fun errorMsg => readUInt32 τ >>= fun _ =>
      readUInt32 τ >>= fun _ => readStack τ >>= fun stack =>
        pure (.fault kind.id nvm errorMsg stack) := by
  cases kind <;> rfl

theorem takes_event (e : Event p) (h : SameWidths e) :
    Takes (update τ p) e.writes (some (e.fieldsWith wireText)) := by
  cases e with
  | createVM vm =>
    rw [Event.writes, ← List.append_nil (header _ _)]
    exact takes_update τ _ (by decide) vm _ _ (takes_pure _)
  | destroyVM vm =>
    rw [Event.writes, ← List.append_nil (header _ _)]
    exact takes_update τ _ (by decide) vm _ _ (takes_pure _)
  | loadScript vm fileName source state =>
    apply takes_update τ _ (by decide)
    apply takes_bind (takes_readString τ _ fileName.noNul)
    apply takes_bind (takes_readString τ _ source.noNul)
    rw [← List.append_nil (writeUInt32 _)]
    exact takes_bind (takes_readUInt32 τ _ state.toNat_lt) (takes_pure _)
  | setBreakpoint vm scriptIndex line set =>
    apply takes_update τ _ (by decide)
    apply takes_bind (takes_readUInt32 τ _ scriptIndex.toNat_lt)
    apply takes_bind (takes_readUInt32 τ _ line.toNat_lt)
    rw [← List.append_nil (writeUInt32 _)]
    exact takes_bind (takes_readUInt32 τ _ set.toNat_lt) (takes_pure _)
  | message vm type content =>
    apply takes_update τ _ (by decide)
    apply takes_bind (takes_readUInt32 τ _ type.toNat_lt)
    rw [← List.append_nil (writeString _)]
    exact takes_bind (takes_readString τ _ content.noNul) (takes_pure _)
  | nameVM vm name =>
    apply takes_update τ _ (by decide)
    rw [← List.append_nil (writeString _)]
    exact takes_bind (takes_readString τ _ name.noNul) (takes_pure _)
  | «break» vm stack =>
    apply takes_update τ _ (by decide)
    rw [← List.append_nil (writeStack _)]
    exact takes_bind (takes_readStack τ stack) (takes_pure _)
  | evaluateRet vm reqId stackLevel success result =>
    apply takes_update τ _ (by decide)
    apply takes_bind (takes_readUInt32 τ _ reqId.toNat_lt)
    apply takes_bind (takes_readUInt32 τ _ stackLevel.toNat_lt)
    apply takes_bind (takes_readBool τ success)
    rw [← List.append_nil (writeString _)]
    exact takes_bind (takes_readString τ _ result.noNul) (takes_pure _)
  | expandTableRet vm reqId stackLevel success result reference =>
    apply takes_update τ _ (by decide)
    apply takes_bind (takes_readUInt32 τ _ reqId.toNat_lt)
    apply takes_bind (takes_readUInt32 τ _ stackLevel.toNat_lt)
    apply takes_bind (takes_readBool τ success)
    apply takes_bind (takes_readString τ _ result.noNul)
    cases hr : parseEvaluateResult (some success) (some (wireText result.bytes)) with
    | error e => cases e; exact absurd hr h
    | ok r =>
      rw [if_neg (by decide), ← List.append_nil (writeUInt32 _)]
      exact takes_bind (takes_readUInt32 τ _ reference.toNat_lt) (takes_pure _)
  | fault kind vm text stack =>
    cases h
    have hid : kind.id < 2^32 := by cases kind <;> decide
    apply takes_update τ _ hid
    rw [readBody_fault]
    apply takes_bind (takes_readString τ _ text.noNul)
    rw [header, List.append_assoc]
    apply takes_bind (takes_readUInt32 τ _ (by decide))
    apply takes_bind (takes_readUInt32 τ vm.val (lt_of_lt_of_eq vm.isLt (by decide)))
    rw [← List.append_nil (writeStack _)]
    exact takes_bind (takes_readStack τ stack) (takes_pure _)

theorem extends_readFrame : Extends (readFrame τ) := by
  apply extends_bind (extends_readUInt32 τ)
  intro fileId
  apply extends_bind (extends_readUInt32 τ)
  intro line
  apply extends_bind (extends_readString τ)
  intro func
  split
  · exact extends_raise
  · exact extends_pure _

theorem extends_readFrames (n : ℕ) : Extends (readFrames τ n) := by
  induction n with
  | zero => exact extends_pure _
  | succ n ih =>
    apply extends_bind (extends_readFrame τ)
    intro f
    exact extends_bind ih (fun _ => extends_pure _)

theorem extends_readStack : Extends (readStack τ) := by
  apply extends_bind (extends_readUInt32 τ)
  intro reason
  apply extends_bind (extends_readUInt32 τ)
  intro numStackFrames
  cases numStackFrames with
  | none => exact extends_raise
  | some n => exact extends_bind (extends_readFrames τ n) (fun _ => extends_pure _)

def faultPrefix (kind : Fault) (vm : Handle p) (message : CString) : List Bytes :=
  header kind.id vm ++ (writeString message.bytes ++ writeUInt32 EventId.break)

theorem fault_writes (kind : Fault) (vm : Handle .x64) (message : CString) (stack : BreakStack) :
    (Event.fault kind vm message stack).writes =
      faultPrefix kind vm message ++ leBytes 8 vm.val :: writeStack stack := by
  simp [Event.writes, faultPrefix, header, writeUInt, write, leBytes, PointerSize.bytes]

theorem splits_update (kind : Fault) (vm : Handle .x64) (message : CString) :
    Splits (update τ .x64) (faultPrefix kind vm message) (leBytes 8 vm.val) := by
  have hid : kind.id < 2^32 := by cases kind <;> decide
  have hcut : Splits (readUInt32 τ) [] (leBytes 8 vm.val) :=
    splits_readUInt32 τ _ (by rw [leBytes_length]; decide)
  rw [faultPrefix, header, List.append_assoc]
  apply splits_after (takes_nReadUInt32 τ _ hid)
  apply splits_after (takes_readUInt τ .x64 vm.val vm.isLt)
  apply splits_bind _ (fun _ => extends_pure _)
  rw [readBody_fault, ← List.append_nil (writeUInt32 _)]
  apply splits_after (takes_readString τ _ message.noNul)
  apply splits_after (takes_readUInt32 τ _ (by decide))
  apply splits_bind hcut
  intro _
  exact extends_bind (extends_readStack τ) (fun _ => extends_pure _)

theorem stops_update (vm : Handle p) (reqId stackLevel : UInt32) (success : Bool)
    (result : CString) (reference : UInt32) (h : Unreadable success (wireText result.bytes)) :
    Stops (update τ p) (Event.expandTableRet vm reqId stackLevel success result reference).writes := by
  rw [Event.writes, header, List.append_assoc]
  apply stops_after (takes_nReadUInt32 τ _ (by decide))
  apply stops_after (takes_readUInt τ p vm.val vm.isLt)
  apply stops_bind
  apply stops_after (takes_readUInt32 τ _ reqId.toNat_lt)
  apply stops_after (takes_readUInt32 τ _ stackLevel.toNat_lt)
  apply stops_after (takes_readBool τ success)
  apply stops_after (takes_readString τ _ result.noNul)
  rw [if_neg (by decide), h]
  intro port rest _
  exact ⟨.raised,rfl⟩

/-- One call of `update` takes the writes of `e` one by one, hands on its
fields, and leaves `rest`. -/
def Delivers (e : Event p) (port port' : Port) (rest : List Bytes) : Prop :=
  update τ p port = .ok (some e.fields,port') ∧ port'.taken = port.taken ++ e.writes ∧
    port'.pipe = rest

/-- Repeated calls of `update` consume the stream event by event. -/
def Agrees : List (Event p) → Port → Prop
  | [], port => port.pipe = []
  | e::es, port => ∃ port', Delivers τ e port port' (stream es) ∧ Agrees es port'

def InStep (e : Event p) : Prop := SameWidths e ∧ ∀ s ∈ e.strings, s.bytes.length < 2^32

theorem fields_eq_iff (e : Event p) :
    e.fieldsWith wireText = e.fields ↔ ∀ s ∈ e.strings, s.bytes.length < 2^32 := by
  rw [Event.fields, fieldsWith_eq_iff]
  simp only [id_eq, wireText_eq_iff]

theorem not_delivers (e : Event p) (port port' : Port) (rest : List Bytes)
    (hp : port.pipe = e.writes ++ rest) (h : ¬ SameWidths e) : ¬ Delivers τ e port port' rest := by
  rintro ⟨hu,ht,-⟩
  cases e with
  | fault kind vm message stack =>
    cases p with
    | x86 => exact h rfl
    | x64 =>
      rw [fault_writes] at hp ht
      rw [List.append_assoc, List.cons_append] at hp
      exact splits_not_exact (splits_update τ kind vm message) port rest hp _ _ hu ht
  | expandTableRet vm reqId stackLevel success result reference =>
    obtain ⟨e,he⟩ := stops_update τ vm reqId stackLevel success result reference
      (not_not.mp h) port rest hp
    rw [he] at hu
    cases hu
  | _ => exact h trivial

theorem delivers_iff (e : Event p) (port : Port) (rest : List Bytes)
    (hp : port.pipe = e.writes ++ rest) : (∃ port', Delivers τ e port port' rest) ↔ InStep e := by
  by_cases hw : SameWidths e
  · obtain ⟨k,hk⟩ := takes_event τ e hw port rest hp
    constructor
    · rintro ⟨port',hu,-,-⟩
      have hf : e.fieldsWith wireText = e.fields := by
        rw [hk] at hu
        exact Option.some.inj (Prod.mk.inj (Except.ok.inj hu)).1
      exact ⟨hw,(fields_eq_iff e).mp hf⟩
    · rintro ⟨-,hs⟩
      exact ⟨_,by rw [hk, (fields_eq_iff e).mpr hs],rfl,rfl⟩
  · constructor
    · rintro ⟨port',hd⟩
      exact absurd hd (not_delivers τ e port port' rest hp hw)
    · rintro ⟨hw',-⟩
      exact absurd hw' hw

theorem agrees_iff (es : List (Event p)) (port : Port) (hp : port.pipe = stream es) :
    Agrees τ es port ↔ ∀ e ∈ es, InStep e := by
  induction es generalizing port with
  | nil => simp [Agrees, hp, stream]
  | cons e es ih =>
    rw [List.forall_mem_cons, ← delivers_iff τ e port (stream es) hp, Agrees]
    constructor
    · rintro ⟨port',hd,ha⟩
      exact ⟨⟨port',hd⟩,(ih port' hd.2.2).mp ha⟩
    · rintro ⟨⟨port',hd⟩,ha⟩
      exact ⟨port',hd,(ih port' hd.2.2).mpr ha⟩

/-- The event stream is consumed event by event exactly when no error is
reported to a 64 bit process, no error reply without an element answers an
expansion, and every string fits its length field. -/
theorem update_agrees_iff (es : List (Event p)) :
    Agrees τ es (Port.fresh (stream es)) ↔ ∀ e ∈ es, InStep e :=
  agrees_iff τ es _ rfl

/-- An exception in a 64 bit process, thrown where no frame is on the stack. -/
def bareException : Event .x64 :=
  .fault .exception ⟨7,by decide⟩ ⟨[],by decide⟩ ⟨3,[],by decide⟩

def synchronous : Timing := ⟨fun _ => false,fun _ _ => 0⟩

theorem bareException_disagrees :
    ¬ Agrees synchronous [bareException] (Port.fresh (stream [bareException])) := by
  rw [agrees_iff synchronous [bareException] _ rfl]
  simp [InStep, SameWidths, bareException]

end Vecoda.EventAgreement

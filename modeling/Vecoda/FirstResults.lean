import Vecoda.EvaluateProgram
import Vecoda.OpenElements
import Vecoda.ShownStrings

/-!
# The first result of an evaluation

The document of an evaluation, from the elements of its values through the
printer and the parser to the handler of the answer. A single value is described
exactly if its texts are readable and not all spaces, its script has a file, or
the reply is accepted at all for a table. The first of several values never is:
the handler goes one element too deep.
-/

set_option autoImplicit false

namespace Vecoda.FirstResults
open MessagePipe LuaText XmlSimple XmlPrinter TextReferences PrintedTags PrintedDocuments OpenElements
open TableDocument EventStream Variables ExpandedTable ShownStrings
open EvaluateProgram (valuesDocument)

section Elements

inductive Written where
  | value (data type : Bytes)
  | function (script line : ℤ)
  | table (t : ℕ) (typeName : Bytes)
  | error (message : Option Bytes)

variable (d : Debuggee)

def closedAttributes (t : ℕ) : List (Bytes × Bytes) :=
  if (d.entries t).isEmpty then emptyAttribute d t else [(text "reference",sprintfD (d.cacheTable t))]

def Written.element : Written → TiXmlElement
  | value data type => writeValue data type
  | function script line => writeFunction script line
  | table t typeName => tableNode typeName (closedAttributes d t) []
  | error message => errorAsText message

variable {d}

end Elements

section Answers

variable (host : Host)

def answer (first : Node) : Lua Evaluated := do
  if first.name = some (text "table") then
    return if first.attr (text "empty") ≠ [] then .emptyTable else .table (referenceOf first)
  else if first.name = some (text "value") then
    let v := (← first.child 1).value
    let ntype := (← first.child 2).value
    return .value (← host.toUtf8 v) ntype
  else if first.name = some (text "function") then return .function (← functionText host first)
  else return .nothing

theorem evaluated_eq (root : Node) : evaluated host root = (do
    let first ← root.child 1
    let root ← if first.name = some (text "values") then first.child 1 else .ok root
    let first ← root.child 1
    answer host first) := rfl

theorem child_get {n c : Node} {i : ℕ} (h : n.children[i]? = some c) : n.child (i+1) = .ok c := by
  rw [Node.child, Nat.add_sub_cancel, h]

/-- Without a wrapper, the first element is the value. -/
theorem evaluated_single {tag : Bytes} {as : List (Bytes × Bytes)} (htag : tag ≠ text "values") {r : Node}
    (h : Leads [⟨0,tag,as⟩] r) : ∃ c, r.children[0]? = some c ∧ c.name = some tag ∧ c.props = as ∧
      evaluated host r = answer host c := by
  obtain ⟨c,hc,⟨hname,hprops⟩,-⟩ := h
  refine ⟨c,hc,hname,hprops,?_⟩
  have hnot : c.name ≠ some (text "values") := fun he => htag (Option.some.inj (hname.symm.trans he))
  simp only [evaluated_eq, child_get hc, bind, Except.bind, if_neg hnot]

/-- With a wrapper, it is the first text of the first value. -/
theorem evaluated_wrapped {tag leafTag : Bytes} {as : List (Bytes × Bytes)} (hleaf : leafTag ≠ text "table")
    (hleaf' : leafTag ≠ text "value") (hleaf'' : leafTag ≠ text "function") {r : Node}
    (h : Leads [⟨0,text "values",[]⟩,⟨0,tag,as⟩,⟨0,leafTag,[]⟩] r) : evaluated host r = .ok .nothing := by
  obtain ⟨c,hc,⟨hname,-⟩,m,hm,-,l,hl,⟨hlname,-⟩,-⟩ := h
  have hne {tag' : Bytes} (h : leafTag ≠ tag') : l.name ≠ some tag' :=
    fun he => h (Option.some.inj (hlname.symm.trans he))
  simp only [evaluated_eq, child_get hc, child_get hm, child_get hl, bind, Except.bind, if_pos hname]
  rw [answer, if_neg (hne hleaf), if_neg (hne hleaf'), if_neg (hne hleaf'')]
  rfl

theorem answer_value {c : Node} (hname : c.name = some (text "value")) : answer host c = (do
    let v := (← c.child 1).value
    let ntype := (← c.child 2).value
    return .value (← host.toUtf8 v) ntype) := by
  have hnot : c.name ≠ some (text "table") := by
    rw [hname]
    decide
  rw [answer, if_neg hnot, if_pos hname]

variable (d : Debuggee)

def tableAnswer (t : ℕ) : Evaluated :=
  if (d.entries t).isEmpty then .emptyTable else .table (some (d.cacheTable t))

theorem tableAnswer_cases (t : ℕ) :
    tableAnswer d t = .emptyTable ∨ tableAnswer d t = .table (some (d.cacheTable t)) := by
  rw [tableAnswer]
  split
  · exact .inl rfl
  · exact .inr rfl

theorem answer_table {c : Node} (hname : c.name = some (text "table")) {t : ℕ}
    (hprops : c.props = closedAttributes d t) : answer host c = .ok (tableAnswer d t) := by
  rw [answer, if_pos hname, tableAnswer, referenceOf, Node.attr, Node.attr, hprops, closedAttributes]
  cases hempty : (d.entries t).isEmpty with
  | true =>
    simp only [if_true, emptyAttribute, hempty]
    rfl
  | false =>
    simp only [Bool.false_eq_true, if_false]
    change Except.ok (Evaluated.table (tonumber (sprintfD (d.cacheTable t)))) = _
    rw [tonumber_sprintfD]

end Answers

section Results

def Arrives (data : Bytes) : Prop := Readable data ∧ hollow data = false

variable (d : Debuggee) (files : ℤ → Option HandleBreak.File)

def Says : Written → Evaluated → Prop
  | .value data type, a => a = .value (some data) (some type)
  | .function _ _, a => ∃ result, a = .function result
  | .table t _, a => a = tableAnswer d t
  | .error _, _ => False

def Fit : Written → Prop
  | .value data type => Arrives data ∧ Arrives type
  | .function script _ => script ≤ 0 ∨ (files script).isSome = true
  | .table t typeName => ∃ r, parseXmlText (print tab [tableNode typeName (closedAttributes d t) []]) = .ok r
  | .error _ => False

variable {d files}

theorem weight_child {n c : Node} {i : ℕ} (h : n.children[i]? = some c) : weight c ≤ weight n := by
  obtain ⟨name,value,children,props⟩ := n
  have hmem : c ∈ children := List.mem_of_getElem? h
  have hle : weight c ≤ weightAll children := by
    clear h
    induction children with
    | nil => cases hmem
    | cons m ms ih =>
      rw [weightAll_cons]
      rcases List.mem_cons.mp hmem with rfl | hmem
      · omega
      · have := ih hmem
        omega
  rw [weight]
  omega

theorem child_ok {n c : Node} {i : ℕ} (h : n.child (i+1) = .ok c) : n.children[i]? = some c := by
  rw [Node.child] at h
  split at h
  · rename_i m hm
    cases h
    exact hm
  · cases h

theorem weight_value {n : Node} {v : Bytes} (h : n.value = some v) : v.length ≤ weight n := by
  obtain ⟨name,value,children,props⟩ := n
  obtain rfl : value = some v := h
  exact Nat.le_add_right _ _

/-- The first two children hold two texts. -/
theorem weight_pair {n a b : Node} (ha : n.child 1 = .ok a) (hb : n.child 2 = .ok b) {v w : Bytes}
    (hv : a.value = some v) (hw : b.value = some w) : v.length + w.length ≤ weight n := by
  have hfirst := child_ok ha
  have hsecond := child_ok hb
  obtain ⟨name,value,children,props⟩ := n
  cases children with
  | nil => cases hfirst
  | cons m ms =>
    cases ms with
    | nil => cases hsecond
    | cons m' ms =>
      cases hfirst
      cases hsecond
      have := weight_value hv
      have := weight_value hw
      simp only [weight, weightAll_cons]
      omega

theorem heldText_le (data : Bytes) : heldText data ≤ data.length := by
  rw [heldText]
  split
  · exact Nat.zero_le _
  · exact le_rfl

theorem arrivedText_eq_some {data : Bytes} (h : arrivedText data = some data) : hollow data = false := by
  rw [arrivedText] at h
  split at h
  · cases h
  · rename_i hnot
    exact Bool.eq_false_iff.mpr hnot

theorem value_document {data type : Bytes} (hdata : Arrives data) (htype : Arrives type) {indent : Bytes}
    (hindent : blank indent = true) :
    parseXmlText (print indent [writeValue data type]) = .ok (arrivedDocument [writeValue data type]) ∧
      ∀ host : Host, evaluated host (arrivedDocument [writeValue data type]) = (do
        return .value (← host.toUtf8 (some data)) (some type)) := by
  constructor
  · refine parse_readable hindent ⟨writable_value _ _,trivial⟩ ?_
    rw [textsAll_single]
    exact readable_value hdata.1 htype.1
  · intro host
    rw [evaluated_value, arrivedText, arrivedText, hdata.2, htype.2]
    rfl

/-- A text and a type are answered exactly if both arrive. -/
theorem value_answered_iff {data type : Bytes} {indent : Bytes} (hindent : blank indent = true) :
    (∃ r, parseXmlText (print indent [writeValue data type]) = .ok r ∧
      evaluated ⟨files,.ok⟩ r = .ok (.value (some data) (some type))) ↔ Arrives data ∧ Arrives type := by
  have hwritable : WritableAll [writeValue data type] := ⟨writable_value _ _,trivial⟩
  have htexts : textsAll [writeValue data type] = [data,type] := rfl
  have hexact := parse_readable hindent hwritable
  rw [htexts] at hexact
  constructor
  · rintro ⟨r,hr,ha⟩
    have hleads := leads_element hindent (label_of (by decide)) (List.forall_mem_nil _) _ _ hr
    obtain ⟨c,hc,hname,-,he⟩ := evaluated_single ⟨files,.ok⟩ (by decide) hleads
    have hvalue := he.symm.trans ha
    rw [answer_value _ hname] at hvalue
    obtain ⟨n,hn,hvalue⟩ := bind_eq_ok.mp hvalue
    obtain ⟨m,hm,hvalue⟩ := bind_eq_ok.mp hvalue
    obtain ⟨v,hv,hvalue⟩ := bind_eq_ok.mp hvalue
    cases hv
    obtain ⟨hdata,htype⟩ := Evaluated.value.inj (Except.ok.inj hvalue)
    have hread : ∀ data' ∈ [data,type], Readable data' := by
      by_contra hnot
      push Not at hnot
      have hlt := (parse_weight hindent hwritable hr).2 hnot
      have hle := weight_pair hn hm hdata htype
      have hle' := weight_child hc
      have hheld := heldText_le data
      have hheld' := heldText_le type
      rw [htexts, heldAll, List.map_cons, List.map_cons, List.map_nil, List.sum_cons, List.sum_singleton] at hlt
      omega
    have hparsed := hexact hread
    obtain rfl := Except.ok.inj (hr.symm.trans hparsed)
    rw [evaluated_value] at ha
    obtain ⟨htext,htype'⟩ := Evaluated.value.inj (Except.ok.inj ha)
    exact ⟨⟨hread data List.mem_cons_self,arrivedText_eq_some htext⟩,
      ⟨hread type (List.mem_cons_of_mem _ List.mem_cons_self),arrivedText_eq_some htype'⟩⟩
  · rintro ⟨hdata,htype⟩
    obtain ⟨hparse,hevaluated⟩ := value_document hdata htype hindent
    exact ⟨_,hparse,hevaluated ⟨files,.ok⟩⟩

theorem plain_closed (d : Debuggee) (t : ℕ) : ∀ a ∈ closedAttributes d t, PlainAttribute a :=
  plain_unexpanded d t

theorem number_readable (z : ℤ) : Readable (sprintfD z) :=
  readable_plain (fun h => (value_plain _ (sprintfD_value z _ h)).2.2.1 rfl)

theorem readable_function (script line : ℤ) : ∀ data ∈ texts (writeFunction script line), Readable data :=
  readable_value (number_readable script) (number_readable line)

theorem number_not_hollow (z : ℤ) : hollow (sprintfD z) = false := by
  have hblank := sprintfD_not_blank z
  rw [← encodeString_plain (fun b hb => (value_plain b (sprintfD_value z b hb)).1), blank_encodeString] at hblank
  exact hblank

/-- The document of a function arrives, and is the one that `parseVariable` reads in a table. -/
theorem function_arrived (script line : ℤ) :
    arrived (writeFunction script line) = parsed (writeFunction script line) := by
  have hleaf (tag : String) (z : ℤ) :
      arrived (writeXmlNode tag (sprintfD z)) = parsed (writeXmlNode tag (sprintfD z)) := by
    rw [writeXmlNode, arrived, parsed, arrivedText, delivered, number_not_hollow, sprintfD_not_blank]
  simp only [writeFunction, arrived, arrivedAll, parsed, parsedAll]
  rw [hleaf, hleaf]

theorem function_document {indent : Bytes} (hindent : blank indent = true) (script line : ℤ) :
    parseXmlText (print indent [writeFunction script line]) =
      .ok (arrivedDocument [writeFunction script line]) := by
  refine parse_readable hindent ⟨writable_function script line,trivial⟩ ?_
  rw [textsAll_single]
  exact readable_function script line

theorem evaluated_function (host : Host) (script line : ℤ) :
    evaluated host (arrivedDocument [writeFunction script line]) = (do
      return .function (← functionText host (parsed (writeFunction script line)))) := by
  rw [← function_arrived]
  rfl

theorem function_answered_iff (host : Host) (script line : ℤ) :
    (∃ result, evaluated host (arrivedDocument [writeFunction script line]) = .ok (.function result)) ↔
      script ≤ 0 ∨ (host.files script).isSome = true := by
  rw [evaluated_function, functionText_written]
  by_cases hpos : script > 0
  · rw [if_pos hpos]
    cases host.files script with
    | none =>
      constructor
      · rintro ⟨_,h⟩
        cases h
      · rintro (h | h)
        · exact absurd hpos (not_lt.mpr h)
        · cases h
    | some objFile => exact ⟨fun _ => .inr rfl,fun _ => ⟨_,rfl⟩⟩
  · rw [if_neg hpos]
    exact ⟨fun _ => .inl (not_lt.mp hpos),fun _ => ⟨_,rfl⟩⟩

/-- A table is answered by its attributes, as far as the reply is accepted. -/
theorem table_answered (host : Host) {indent : Bytes} (hindent : blank indent = true) {t : ℕ} {typeName : Bytes}
    {r : Node} (hr : parseXmlText (print indent [tableNode typeName (closedAttributes d t) []]) = .ok r) :
    r.numChildren ≠ 0 ∧ evaluated host r = .ok (tableAnswer d t) := by
  have hleads := leads_element hindent (label_of (by decide)) (plain_closed d t) _ _ hr
  obtain ⟨c,hc,hname,hprops,he⟩ := evaluated_single host (by decide) hleads
  refine ⟨fun hzero => ?_,he.trans (answer_table host d hname hprops)⟩
  rw [List.length_eq_zero_iff.mp hzero] at hc
  cases hc

/-- The answer to an evaluation: one successful response, which says what the first value is; the
reference of a table can be expanded. -/
def FirstShown (d : Debuggee) (files : ℤ → Option HandleBreak.File) (e : Encoding) (seq vm stackLevel : ℕ)
    (s : State) (vs : List Value) : Prop :=
  ∃ xs w r a u, vs.mapM (resultAsText d) = some xs ∧ xs.head? = some (w.element d) ∧
    received tab (valuesDocument xs.length xs) = .ok (true,.node r) ∧
    evaluated ⟨files,.ok⟩ r = .ok a ∧ Says d w a ∧
    evaluateRet (host files e) seq vm stackLevel true (.node r) s = (u,false) ∧
    u.responses = s.responses ++ [⟨seq,true⟩] ∧
    ∀ reference, a = .table (some reference) → (u.«variables» reference).isSome = true

theorem several_not_said (d : Debuggee) (files : ℤ → Option HandleBreak.File) (w : Written) (x : TiXmlElement)
    (xs : List TiXmlElement) {r : Node} {a : Evaluated}
    (hr : received tab (valuesDocument (w.element d :: x :: xs).length (w.element d :: x :: xs)) =
      .ok (true,.node r))
    (ha : evaluated ⟨files,.ok⟩ r = .ok a) : ¬ Says d w a := by
  have hnone : ∀ a ∈ ([] : List (Bytes × Bytes)), PlainAttribute a := List.forall_mem_nil _
  have hdocument : valuesDocument (w.element d :: x :: xs).length (w.element d :: x :: xs) =
      [.node (text "values") [] (w.element d :: x :: xs)] := by
    rw [valuesDocument, if_pos]
    simp
  rw [hdocument, received_iff] at hr
  have hlabel {tag : Bytes} (h : tag ≠ [] ∧ tag.all isLabel = true) := label_of h
  intro hsaid
  cases w with
  | error message => exact hsaid
  | value data type =>
    have hleads := leads_leaf (by decide) (hlabel (by decide)) hnone (hlabel (by decide)) hnone (hlabel (by decide))
      data _ (x::xs) hr
    rw [evaluated_wrapped _ (by decide) (by decide) (by decide) hleads] at ha
    cases ha
    cases hsaid
  | function script line =>
    have hleads := leads_leaf (by decide) (hlabel (by decide)) hnone (hlabel (by decide)) hnone (hlabel (by decide))
      (sprintfD script) _ (x::xs) hr
    rw [evaluated_wrapped _ (by decide) (by decide) (by decide) hleads] at ha
    cases ha
    obtain ⟨result,hsaid⟩ := hsaid
    cases hsaid
  | table t typeName =>
    have hleads := leads_leaf (by decide) (hlabel (by decide)) hnone (hlabel (by decide)) (plain_closed d t)
      (hlabel (by decide)) typeName _ (x::xs) hr
    rw [evaluated_wrapped _ (by decide) (by decide) (by decide) hleads] at ha
    cases ha
    rw [Says, tableAnswer] at hsaid
    split at hsaid <;> cases hsaid

/-- The first of several values is not shown. -/
theorem not_shown_several (d : Debuggee) (files : ℤ → Option HandleBreak.File) (e : Encoding)
    (seq vm stackLevel : ℕ) (s : State) (v v' : Value) (vs : List Value) :
    ¬ FirstShown d files e seq vm stackLevel s (v::v'::vs) := by
  rintro ⟨xs,w,r,a,s',hxs,hhead,hr,ha,hsaid,-⟩
  rw [List.mapM_cons] at hxs
  obtain ⟨x,-,hxs⟩ := Option.bind_eq_some_iff.mp hxs
  obtain ⟨xs',hxs',hxs⟩ := Option.bind_eq_some_iff.mp hxs
  obtain rfl := Option.some.inj hxs
  obtain rfl := Option.some.inj hhead
  rw [List.mapM_cons] at hxs'
  obtain ⟨x',-,hxs'⟩ := Option.bind_eq_some_iff.mp hxs'
  obtain ⟨xs'',-,hxs'⟩ := Option.bind_eq_some_iff.mp hxs'
  obtain rfl := Option.some.inj hxs'
  exact several_not_said d files w x' xs'' hr ha hsaid

/-- The handler's response to a value, a function or an empty table. -/
theorem evaluateRet_plain {host : Host} {r : Node} {a : Evaluated} (hchildren : r.numChildren ≠ 0)
    (ha : evaluated host r = .ok a) (htable : ∀ reference, a ≠ .table reference) (hnothing : a ≠ .nothing)
    (seq vm stackLevel : ℕ) (s : State) :
    evaluateRet host seq vm stackLevel true (.node r) s = (s.respond seq true,false) := by
  cases a with
  | table reference => exact absurd rfl (htable reference)
  | nothing => exact absurd rfl hnothing
  | emptyTable | value _ _ | function _ =>
    simp only [evaluateRet, Bool.not_true, Bool.false_eq_true, if_false, if_neg hchildren, ha]

/-- A table gets a variable under its reference. -/
theorem evaluateRet_table {host : Host} {r : Node} {reference : ℤ} (hchildren : r.numChildren ≠ 0)
    (ha : evaluated host r = .ok (.table (some reference))) (seq vm stackLevel : ℕ) (s : State) :
    ∃ u, evaluateRet host seq vm stackLevel true (.node r) s = (u,false) ∧
      u.responses = s.responses ++ [⟨seq,true⟩] ∧ (u.«variables» reference).isSome = true := by
  simp only [evaluateRet, Bool.not_true, Bool.false_eq_true, if_false, if_neg hchildren, ha]
  refine ⟨_,rfl,rfl,?_⟩
  show (Function.update s.«variables» reference _ reference).isSome = true
  rw [Function.update_self]
  rfl

theorem single_document (x : TiXmlElement) : valuesDocument [x].length [x] = [x] := rfl

theorem document_children (x : TiXmlElement) : (arrivedDocument [x]).numChildren ≠ 0 := Nat.one_ne_zero

section Single

variable {e : Encoding} {seq vm stackLevel : ℕ} {s : State} {v : Value}

theorem single_written {x : TiXmlElement} (hx : resultAsText d v = some x) :
    [v].mapM (resultAsText d) = some [x] := by
  rw [List.mapM_cons, hx]
  rfl

theorem fit_of_said {w : Written} {r : Node} {a : Evaluated}
    (hr : parseXmlText (print tab [w.element d]) = .ok r) (ha : evaluated ⟨files,.ok⟩ r = .ok a)
    (hsaid : Says d w a) : Fit d files w := by
  cases w with
  | value data type => exact (@value_answered_iff files data type tab (by decide)).mp ⟨r,hr,hsaid ▸ ha⟩
  | function script line =>
    obtain ⟨result,rfl⟩ := hsaid
    obtain rfl := Except.ok.inj ((@function_document tab (by decide) script line).symm.trans hr)
    exact (function_answered_iff ⟨files,.ok⟩ script line).mp ⟨result,ha⟩
  | table t typeName => exact ⟨r,hr⟩
  | error message => exact hsaid

theorem fit_of_shown (h : FirstShown d files e seq vm stackLevel s [v]) :
    ∃ w, resultAsText d v = some (w.element d) ∧ Fit d files w := by
  obtain ⟨xs,w,r,a,s',hxs,hhead,hr,ha,hsaid,-⟩ := h
  rw [List.mapM_cons] at hxs
  obtain ⟨x,hx,hxs⟩ := Option.bind_eq_some_iff.mp hxs
  rw [List.mapM_nil] at hxs
  obtain rfl := Option.some.inj hxs
  obtain rfl := Option.some.inj hhead
  rw [single_document, received_iff] at hr
  exact ⟨w,hx,fit_of_said hr ha hsaid⟩

theorem value_shown {data type : Bytes} (hx : resultAsText d v = some (writeValue data type))
    (hdata : Arrives data) (htype : Arrives type) : FirstShown d files e seq vm stackLevel s [v] := by
  obtain ⟨hparse,hevaluated⟩ := @value_document data type hdata htype tab (by decide)
  obtain ⟨converted,hconverted⟩ := toUtf8_some e data
  have hanswer : evaluated (host files e) (arrivedDocument [writeValue data type]) =
      .ok (.value (some converted) (some type)) := by
    rw [hevaluated]
    change toUtf8 e (some data) >>= _ = _
    rw [hconverted]
    rfl
  exact ⟨_,.value data type,_,_,_,single_written hx,rfl,(received_iff tab _ [] _).mpr hparse,
    hevaluated ⟨files,.ok⟩,rfl,
    evaluateRet_plain (document_children _) hanswer (fun _ h => by cases h) (fun h => by cases h) seq vm
      stackLevel s,rfl,fun _ h => by cases h⟩

theorem function_shown {script line : ℤ} (hx : resultAsText d v = some (writeFunction script line))
    (hfit : script ≤ 0 ∨ (files script).isSome = true) : FirstShown d files e seq vm stackLevel s [v] := by
  obtain ⟨result,ha⟩ := (function_answered_iff ⟨files,.ok⟩ script line).mpr hfit
  obtain ⟨result',ha'⟩ := (function_answered_iff (host files e) script line).mpr hfit
  exact ⟨_,.function script line,_,_,_,single_written hx,rfl,
    (received_iff tab _ [] _).mpr (function_document (by decide) script line),ha,⟨result,rfl⟩,
    evaluateRet_plain (document_children _) ha' (fun _ h => by cases h) (fun h => by cases h) seq vm
      stackLevel s,rfl,fun _ h => by cases h⟩

theorem table_shown {t : ℕ} {typeName : Bytes}
    (hx : resultAsText d v = some (tableNode typeName (closedAttributes d t) [])) {r : Node}
    (hr : parseXmlText (print tab [tableNode typeName (closedAttributes d t) []]) = .ok r) :
    FirstShown d files e seq vm stackLevel s [v] := by
  obtain ⟨hchildren,ha⟩ := table_answered ⟨files,.ok⟩ (by decide) hr
  obtain ⟨-,ha'⟩ := table_answered (host files e) (by decide) hr
  have hread := (received_iff tab _ [] _).mpr hr
  rcases tableAnswer_cases d t with hempty | hreference
  · rw [hempty] at ha'
    exact ⟨_,.table t typeName,r,_,_,single_written hx,rfl,hread,ha,rfl,
      evaluateRet_plain hchildren ha' (fun _ h => by cases h) (fun h => by cases h) seq vm stackLevel s,rfl,
      fun _ h => by rw [hempty] at h; cases h⟩
  · rw [hreference] at ha'
    obtain ⟨s',hanswer,hresponses,hvariable⟩ := evaluateRet_table hchildren ha' seq vm stackLevel s
    refine ⟨_,.table t typeName,r,_,s',single_written hx,rfl,hread,ha,rfl,hanswer,hresponses,
      fun reference h => ?_⟩
    rw [hreference] at h
    cases h
    exact hvariable

end Single

/-- The first of the values is shown exactly if it is the only one and what is written for it gets to
the answer. -/
theorem first_shown_iff (d : Debuggee) (files : ℤ → Option HandleBreak.File) (e : Encoding)
    (seq vm stackLevel : ℕ) (s : State) (vs : List Value) :
    FirstShown d files e seq vm stackLevel s vs ↔
      ∃ v w, vs = [v] ∧ resultAsText d v = some (w.element d) ∧ Fit d files w := by
  constructor
  · intro h
    cases vs with
    | nil =>
      obtain ⟨xs,w,r,a,s',hxs,hhead,-⟩ := h
      cases hxs
      cases hhead
    | cons v vs =>
      cases vs with
      | cons v' vs => exact absurd h (not_shown_several d files e seq vm stackLevel s v v' vs)
      | nil =>
        obtain ⟨w,hx,hfit⟩ := fit_of_shown h
        exact ⟨v,w,rfl,hx,hfit⟩
  · rintro ⟨v,w,rfl,hx,hfit⟩
    cases w with
    | value data type => exact value_shown hx hfit.1 hfit.2
    | function script line => exact function_shown hx hfit
    | table t typeName =>
      obtain ⟨r,hr⟩ := hfit
      exact table_shown hx hr
    | error message => exact hfit.elim

def numbers : Debuggee := ⟨fun _ => [],fun t => t,fun _ => []⟩

theorem second_hides_first :
    ¬ FirstShown numbers (fun _ => none) ⟨false,none⟩ 7 1 0 Requests.initial [one,one] :=
  not_shown_several numbers (fun _ => none) ⟨false,none⟩ 7 1 0 Requests.initial one one []

end Results

end Vecoda.FirstResults

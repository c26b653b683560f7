import Vecoda.OneResponse
import Vecoda.TableDocument

/-!
# Answers to the expansion of a table

The document that the backend makes of a table goes through `expandRet`. It is
answered with a variable for each entry exactly when every key and every value
is displayed: one entry that is not loses the whole answer.
-/

set_option autoImplicit false

namespace Vecoda.ExpandedTable
open MessagePipe LuaText XmlSimple Variables TableDocument

/-- encoding.lua: whether texts arrive in GBK, and the loaded table of its codes. -/
structure Encoding where
  gbk : Bool
  dict : Option (ℕ → Option Bytes)

def gbk2utf8 (d : ℕ → Option Bytes) : Bytes → Bytes
  | [] => []
  | b::bs =>
    if b < 127 then b :: gbk2utf8 d bs
    else match bs with
      | [] => text "?"
      | low::rest => (d (low.toNat + b.toNat <<< 8)).getD (text "?") ++ gbk2utf8 d rest

def toUtf8 (e : Encoding) (str : Option Bytes) : Lua (Option Bytes) :=
  if e.gbk then
    match e.dict, str with
    | none, _ => .ok str
    | some _, none => .error .raised
    | some d, some str => .ok (some (gbk2utf8 d str))
  else .ok str

def host (files : ℤ → Option HandleBreak.File) (e : Encoding) : Host := ⟨files,toUtf8 e⟩

theorem toUtf8_some (e : Encoding) (str : Bytes) :
    ∃ converted, toUtf8 e (some str) = .ok (some converted) := by
  obtain ⟨gbk,dict⟩ := e
  cases gbk <;> cases dict <;> exact ⟨_,rfl⟩

theorem toUtf8_none {e : Encoding} {str : Option Bytes} (h : toUtf8 e none = .ok str) : str = none := by
  obtain ⟨gbk,dict⟩ := e
  cases gbk <;> cases dict <;> cases h <;> rfl

theorem toUtf8_isSome {e : Encoding} {str converted : Option Bytes} (h : toUtf8 e str = .ok converted) :
    converted.isSome = str.isSome := by
  cases str with
  | none => rw [toUtf8_none h]
  | some str =>
    obtain ⟨_,hs⟩ := toUtf8_some e str
    rw [hs] at h
    cases h
    rfl

theorem blank_cons {b : UInt8} (h : isSpace b = false) (s : Bytes) : blank (b::s) = false := by
  simp [blank, h]

theorem sprintfD_not_blank (z : ℤ) : blank (sprintfD z) = false := by
  cases z with
  | negSucc n => exact blank_cons (by decide) _
  | ofNat n =>
    obtain ⟨b,bs,hb⟩ := List.exists_cons_of_ne_nil (Framing.decimal_ne_nil n)
    have hdigit := Framing.decimal_digits n b (by rw [hb]; exact List.mem_cons_self)
    rw [sprintfD, hb]
    exact blank_cons (Framing.digit_not_space b hdigit) bs

theorem foldl_digits (ds : Bytes) (m : ℕ) :
    ds.foldl (fun (n : ℤ) b => n * 10 + ((b.toNat - (byte '0').toNat : ℕ) : ℤ)) m =
      (ds.foldl (fun n b => n * 10 + (b.toNat - (byte '0').toNat)) m : ℕ) := by
  induction ds generalizing m with
  | nil => rfl
  | cons d ds ih =>
    rw [List.foldl_cons, List.foldl_cons, ← ih]
    push_cast
    rfl

theorem foldl_decimal (n : ℕ) :
    (Framing.decimal n).foldl
      (fun (n : ℤ) b => n * 10 + ((b.toNat - (byte '0').toNat : ℕ) : ℤ)) 0 = n :=
  (foldl_digits (Framing.decimal n) 0).trans (congrArg Nat.cast (Framing.decimalValue_decimal n))

theorem decimal_not_space (n : ℕ) : ∀ b ∈ Framing.decimal n, isSpace b = false :=
  fun b hb => Framing.digit_not_space b (Framing.decimal_digits n b hb)

theorem tonumber_sprintfD (z : ℤ) : tonumber (sprintfD z) = some z := by
  have hall (n : ℕ) : (Framing.decimal n).all isDigit = true :=
    List.all_eq_true.mpr (Framing.decimal_digits n)
  cases z with
  | ofNat n =>
    obtain ⟨b,bs,hb⟩ := List.exists_cons_of_ne_nil (Framing.decimal_ne_nil n)
    have hminus : b ≠ byte '-' :=
      Framing.ne_of_digit _ _ (Framing.decimal_digits n b (hb ▸ List.mem_cons_self)) (by decide)
    have htrim : trim (Framing.decimal n) = b::bs := hb ▸ Framing.trim_id _ (decimal_not_space n)
    have hvalue := foldl_decimal n
    have hdigits := hall n
    rw [hb] at hvalue hdigits
    simp only [sprintfD, tonumber, htrim, if_neg hminus, hdigits, ne_eq, reduceCtorEq,
      not_false_eq_true, and_self, if_true]
    exact congrArg some hvalue
  | negSucc n =>
    have htrim : trim (byte '-' :: Framing.decimal (n+1)) = byte '-' :: Framing.decimal (n+1) := by
      refine Framing.trim_id _ (fun b hb => ?_)
      rcases List.mem_cons.mp hb with rfl | hb
      · decide
      · exact decimal_not_space _ b hb
    simp only [sprintfD, tonumber, htrim, if_true, hall, ne_eq, Framing.decimal_ne_nil,
      not_false_eq_true, and_self, Option.map_some, foldl_decimal]
    rfl

section Entries

variable {d : Debuggee} {tableAsText : ℕ → Bytes → Option TiXmlElement}

def keyName (key : Node) : Lua (Option Bytes) := do
  let strkey := (← key.child 1).value
  let _ ← key.child 2
  return strkey

def valueOf (host : Host) (valueel : Node) :
    Lua ((Option Bytes × Option Bytes) × Option (Option ℤ)) :=
  if valueel.name = some (text "table") then
    if valueel.attr (text "empty") ≠ [] then
      return ((some (text "\x7b\x7d"),some (text "table")),none)
    else return ((some (text "table"),some (text "table")),some (referenceOf valueel))
  else if valueel.name = some (text "function") then
    return ((some (← functionText host valueel),some (text "function")),none)
  else do
    let value := (← valueel.child 1).value
    let valuetype := (← valueel.child 2).value
    return ((value,valuetype),none)

def entryNode (key value : TiXmlElement) : TiXmlElement :=
  .node (text "element") [] [.node (text "key") [] [key],.node (text "data") [] [value]]

/-- An element of which the key and the value are found. -/
theorem parseElement_children (host : Host) {el keys values k v : Node} (hkeys : el.child 1 = .ok keys)
    (hk : keys.child 1 = .ok k) (hvalues : el.child 2 = .ok values) (hv : values.child 1 = .ok v) :
    parseElement host el = (do
      let name ← keyName k
      let ((shown,type),nested) ← valueOf host v
      return (⟨name,shown,type,0⟩,nested)) := by
  simp only [parseElement, hkeys, hk, hvalues, hv, bind, Except.bind]
  change (k.child 1 >>= fun first => k.child 2 >>= fun _ => _) = _
  rw [keyName]
  cases k.child 1 with
  | error _ => rfl
  | ok first =>
    cases k.child 2 with
    | error _ => rfl
    | ok _ =>
      change (if v.name = some (text "table") then (if v.attr (text "empty") ≠ [] then _ else _)
        else if v.name = some (text "function") then _ else _) = valueOf host v >>= _
      rw [valueOf]
      split
      · split <;> rfl
      · split
        · cases functionText host v <;> rfl
        · cases v.child 1 with
          | error _ => rfl
          | ok _ => cases v.child 2 <;> rfl

theorem parseElement_entry (host : Host) (key value : TiXmlElement) :
    parseElement host (parsed (entryNode key value)) = (do
      let name ← keyName (parsed key)
      let ((shown,type),nested) ← valueOf host (parsed value)
      return (⟨name,shown,type,0⟩,nested)) :=
  parseElement_children host rfl rfl rfl rfl

def Closed (tableAsText : ℕ → Bytes → Option TiXmlElement) : Prop :=
  ∀ t typeName, ∃ attributes, tableAsText t typeName = some (tableNode typeName attributes [])

theorem closed_table (d : Debuggee) : Closed (getTableAsText d 0) := fun _ _ => ⟨_,rfl⟩

/-- What is written for a key with a text has it in the first of two places. -/
theorem key_written (tableAsText : ℕ → Bytes → Option TiXmlElement) (k : Value) {shown : Bytes}
    (h : keyText d k = some shown) (typeName : Option Bytes) :
    ∃ tag first second other, getValueAsText d tableAsText true k typeName =
      some (.node tag [] [.leaf first shown,.leaf second other]) := by
  induction k generalizing typeName with
  | nil | boolean _ | number _ | string _ | thread | cdata | function _ _ =>
    cases h
    exact ⟨_,_,_,_,rfl⟩
  | table t => cases h
  | unwatchable u message => cases h
  | userdata u =>
    obtain ⟨className,pointer,tostring⟩ := u
    match tostring with
    | some (.failed message) => cases h
    | none | some (.returned none) | some (.returned (some string)) =>
      cases h
      exact ⟨_,_,_,_,rfl⟩
  | watched u others last ih =>
    rw [keyText] at h
    obtain ⟨hname,hlast⟩ := Option.ite_none_right_eq_some.mp h
    obtain ⟨className,hc⟩ := Option.isSome_iff_exists.mp hname
    rw [getValueAsText, hc]
    exact ih hlast (some className)

/-- A key with a text is read as that text. -/
theorem key_read (tableAsText : ℕ → Bytes → Option TiXmlElement) (k : Value) {shown : Bytes}
    (h : keyText d k = some shown) (typeName : Option Bytes) :
    ∃ x, getValueAsText d tableAsText true k typeName = some x ∧
      keyName (parsed x) = .ok (delivered shown) := by
  obtain ⟨tag,first,second,other,hx⟩ := key_written tableAsText k h typeName
  exact ⟨_,hx,rfl⟩

/-- A key without a text is written as a table or as an error. -/
theorem key_unwritten (hclosed : Closed tableAsText) (k : Value) (h : keyText d k = none)
    (typeName : Option Bytes) {x : TiXmlElement}
    (hx : getValueAsText d tableAsText true k typeName = some x) :
    (∃ name attributes, x = tableNode name attributes []) ∨ ∃ message, x = errorAsText message := by
  induction k generalizing typeName with
  | nil | boolean _ | number _ | string _ | thread | cdata | function _ _ => cases h
  | table t =>
    obtain ⟨attributes,ht⟩ := hclosed t (typeName.getD (text "table"))
    rw [getValueAsText, ht] at hx
    cases hx
    exact .inl ⟨_,_,rfl⟩
  | unwatchable u message =>
    cases hx
    exact .inr ⟨_,rfl⟩
  | userdata u =>
    obtain ⟨className,pointer,tostring⟩ := u
    match tostring with
    | some (.failed message) =>
      cases hx
      exact .inr ⟨_,rfl⟩
    | none | some (.returned none) | some (.returned (some string)) => cases h
  | watched u others last ih =>
    rw [keyText] at h
    rw [getValueAsText] at hx
    obtain ⟨className,hc,hlast⟩ := Option.bind_eq_some_iff.mp hx
    rw [hc] at h
    exact ih (by simpa using h) (some className) hlast

/-- A table or an error in the place of a key raises. -/
theorem key_lost (hclosed : Closed tableAsText) (k : Value) (h : keyText d k = none)
    (typeName : Option Bytes) {x : TiXmlElement}
    (hx : getValueAsText d tableAsText true k typeName = some x) :
    keyName (parsed x) = .error .raised := by
  rcases key_unwritten hclosed k h typeName hx with ⟨_,_,rfl⟩ | ⟨_,rfl⟩
  · rfl
  · rfl

/-- What is written for a value is read as a text and a type, of which neither is missing. -/
def Reads (host : Host) (x : TiXmlElement) : Prop :=
  ∃ value type nested, valueOf host (parsed x) = .ok ((some value,some type),nested)

theorem reads_writeValue_iff (host : Host) (data type : Bytes) :
    Reads host (writeValue data type) ↔ blank data = false ∧ blank type = false := by
  have hread : valueOf host (parsed (writeValue data type)) =
      .ok ((delivered data,delivered type),none) := rfl
  simp only [Reads, hread, delivered]
  cases blank data <;> cases blank type <;> simp

theorem numberOf_written (tag : String) (z : ℤ) :
    numberOf (parsed (writeXmlNode tag (sprintfD z))) = some z := by
  rw [writeXmlNode, parsed, numberOf, Node.value, delivered, sprintfD_not_blank]
  exact tonumber_sprintfD z

theorem functionText_written (host : Host) (script line : ℤ) :
    functionText host (parsed (writeFunction script line)) =
      if script > 0 then (host.files script).elim (.error .raised) (fun objFile =>
        .ok (text "function " ++ objFile.path.getD (text "<Unknow>") ++ text ":" ++ text (toString (line+1))))
      else .ok (text "function") := by
  have hscript : (parsed (writeFunction script line)).child 1 =
      .ok (parsed (writeXmlNode "script" (sprintfD script))) := rfl
  have hline : (parsed (writeFunction script line)).child 2 =
      .ok (parsed (writeXmlNode "line" (sprintfD line))) := rfl
  rw [functionText, hscript, hline]
  simp only [bind, Except.bind, numberOf_written]
  cases host.files script <;> rfl

theorem reads_function_iff (host : Host) (script line : ℤ) :
    Reads host (writeFunction script line) ↔ script ≤ 0 ∨ (host.files script).isSome = true := by
  have hread : valueOf host (parsed (writeFunction script line)) = (do
      let shown ← functionText host (parsed (writeFunction script line))
      return ((some shown,some (text "function")),none)) := rfl
  rw [Reads, hread, functionText_written]
  by_cases hpos : script > 0
  · rw [if_pos hpos]
    cases host.files script with
    | none =>
      constructor
      · rintro ⟨_,_,_,h⟩
        cases h
      · rintro (h | h)
        · exact absurd hpos (not_lt.mpr h)
        · cases h
    | some objFile => exact ⟨fun _ => .inr rfl,fun _ => ⟨_,_,_,rfl⟩⟩
  · rw [if_neg hpos]
    exact ⟨fun _ => .inl (not_lt.mp hpos),fun _ => ⟨_,_,_,rfl⟩⟩

theorem reads_table (host : Host) (typeName : Bytes) (attributes : List (Bytes × Bytes))
    (elements : List TiXmlElement) : Reads host (tableNode typeName attributes elements) := by
  have hname : (parsed (tableNode typeName attributes elements)).name = some (text "table") := rfl
  rw [Reads, valueOf, if_pos hname]
  split
  · exact ⟨_,_,_,rfl⟩
  · exact ⟨_,_,_,rfl⟩

theorem not_reads_error (host : Host) (message : Option Bytes) : ¬ Reads host (errorAsText message) := by
  rintro ⟨value,type,nested,h⟩
  cases h

theorem blank_stringAsText (d : Debuggee) (s : Bytes) : blank (stringAsText d false s) = false := by
  rw [stringAsText]
  obtain ⟨result,wide⟩ := getAsciiString d s
  cases wide
  · exact blank_cons (by decide) _
  · exact blank_cons (by decide) _

theorem plain_read_iff (host : Host) {data own : Bytes} (hdata : blank data = false)
    (hown : blank own = false) (typeName : Option Bytes) :
    (∃ x, some (writeValue data (typeName.getD own)) = some x ∧ Reads host x) ↔
      typeName.all (!blank ·) = true := by
  simp only [Option.some.injEq, exists_eq_left', reads_writeValue_iff, hdata, true_and]
  cases typeName <;> simp [hown]

/-- A value is read in full exactly if it is displayed. -/
theorem value_read_iff (host : Host) (hclosed : Closed tableAsText) (v : Value)
    (typeName : Option Bytes) :
    (∃ x, getValueAsText d tableAsText false v typeName = some x ∧ Reads host x) ↔
      valueShown (fun z => (host.files z).isSome) v typeName = true := by
  induction v generalizing typeName with
  | nil => exact plain_read_iff host (by decide) (by decide) typeName
  | boolean b => cases b <;> exact plain_read_iff host (by decide) (by decide) typeName
  | number n => exact plain_read_iff host n.property (by decide) typeName
  | string s => exact plain_read_iff host (blank_stringAsText d s) (by decide) typeName
  | thread => exact plain_read_iff host (by decide) (by decide) typeName
  | cdata =>
    simp only [getValueAsText, valueShown, Option.some.injEq, exists_eq_left', reads_writeValue_iff]
    simp [bracketed, blank]
  | table t =>
    obtain ⟨attributes,ht⟩ := hclosed t (typeName.getD (text "table"))
    rw [getValueAsText, ht]
    exact ⟨fun _ => rfl,fun _ => ⟨_,rfl,reads_table host _ _ _⟩⟩
  | unwatchable u message =>
    simp only [getValueAsText, valueShown, Option.some.injEq, exists_eq_left', not_reads_error,
      Bool.false_eq_true]
  | function script line =>
    simp only [getValueAsText, valueShown, Option.some.injEq, exists_eq_left', reads_function_iff,
      Bool.or_eq_true, decide_eq_true_eq]
  | userdata u =>
    obtain ⟨className,pointer,tostring⟩ := u
    simp only [getValueAsText, Option.some.injEq, exists_eq_left']
    match tostring with
    | some (.failed message) => simpa [valueShown, userdataAsText] using not_reads_error host message
    | some (.returned (some string)) =>
      apply (reads_writeValue_iff host _ _).trans
      simp [valueShown, and_comm]
    | none | some (.returned none) =>
      apply (reads_writeValue_iff host _ _).trans
      have hpointer : blank (bracketed false (text "0x" ++ pointer)) = false := blank_cons (by decide) _
      simp [valueShown, hpointer]
  | watched u others last ih =>
    rw [getValueAsText, valueShown]
    cases watchedName u others with
    | none => simp
    | some className => exact ih (some className)

/-- The variable of an entry: it is named by the key, and has a value and a type. -/
structure Shows (d : Debuggee) (e : Encoding) (entry : Value × Value) (c : Child) : Prop where
  name : toUtf8 e (keyText d entry.1) = .ok c.name
  named : c.name.isSome = true
  valued : c.value.isSome = true
  typed : c.type.isSome = true

def filled (child : Child) (name value : Option Bytes) (reference : ℤ) : Child :=
  {child with name := name, value := value, variablesReference := reference}

/-- A step of the loop that does not raise. -/
theorem parseElements_cons {host : Host} {vm stackLevel : ℕ} {el : Node} {els : List Node} {s t : State}
    {values : List Child} (h : parseElements host vm stackLevel (el::els) s = (some values,t)) :
    ∃ child nested name value rest, parseElement host el = .ok (child,nested) ∧
      host.toUtf8 child.name = .ok name ∧ host.toUtf8 child.value = .ok value ∧
      parseElements host vm stackLevel els (nestedReference vm stackLevel s nested).2 = (some rest,t) ∧
      values = filled child name value (nestedReference vm stackLevel s nested).1 :: rest := by
  rw [parseElements] at h
  cases hel : parseElement host el with
  | error _ => simp [hel] at h
  | ok p =>
    obtain ⟨child,nested⟩ := p
    simp only [hel] at h
    cases hname : host.toUtf8 child.name with
    | error _ => simp [hname] at h
    | ok name =>
      cases hvalue : host.toUtf8 child.value with
      | error _ => simp [hname, hvalue] at h
      | ok value =>
        simp only [hname, hvalue, Prod.mk.injEq, Option.map_eq_some_iff] at h
        obtain ⟨⟨rest,hrest,rfl⟩,rfl⟩ := h
        exact ⟨child,nested,name,value,rest,rfl,hname,hvalue,Prod.ext hrest rfl,rfl⟩

theorem parseElements_goes {host : Host} {vm stackLevel : ℕ} {el : Node} {els : List Node} {s t : State}
    {child : Child} {nested : Option (Option ℤ)} {name value : Option Bytes} {rest : List Child}
    (hel : parseElement host el = .ok (child,nested)) (hname : host.toUtf8 child.name = .ok name)
    (hvalue : host.toUtf8 child.value = .ok value)
    (hrest : parseElements host vm stackLevel els (nestedReference vm stackLevel s nested).2 =
      (some rest,t)) :
    parseElements host vm stackLevel (el::els) s =
      (some (filled child name value (nestedReference vm stackLevel s nested).1 :: rest),t) := by
  simp only [parseElements, hel, hname, hvalue, hrest, Option.map_some]
  rfl

variable {files : ℤ → Option HandleBreak.File} {e : Encoding}

theorem keyShown_iff {k : Value} :
    keyShown d k = true ↔ ∃ shown, keyText d k = some shown ∧ blank shown = false := by
  simp [keyShown, Option.any_eq_true]

/-- A displayed entry is read as its variable. -/
theorem entry_shown (hclosed : Closed tableAsText) {entry : Value × Value}
    (h : entryShown d (fun z => (files z).isSome) entry = true) :
    ∃ x child nested name value, entryAsText d tableAsText entry = some x ∧
      parseElement (host files e) (parsed x) = .ok (child,nested) ∧
      toUtf8 e child.name = .ok name ∧ toUtf8 e child.value = .ok value ∧
      ∀ reference, Shows d e entry (filled child name value reference) := by
  obtain ⟨hkey,hvalue⟩ := Bool.and_eq_true_iff.mp h
  obtain ⟨shown,htext,hvisible⟩ := keyShown_iff.mp hkey
  obtain ⟨k,hk,hname⟩ := key_read tableAsText entry.1 htext none
  obtain ⟨v,hv,value,type,nested,hof⟩ := (value_read_iff (host files e) hclosed entry.2 none).mpr hvalue
  obtain ⟨name',hn⟩ := toUtf8_some e shown
  obtain ⟨value',hv'⟩ := toUtf8_some e value
  refine ⟨entryNode k v,⟨some shown,some value,some type,0⟩,nested,some name',some value',?_,?_,hn,hv',?_⟩
  · rw [entryAsText, hk, hv]
    rfl
  · rw [parseElement_entry, hname, delivered, hvisible, hof]
    rfl
  · exact fun reference => ⟨htext ▸ hn,rfl,rfl,rfl⟩

/-- An entry that is read as a variable is displayed. -/
theorem entry_read (hclosed : Closed tableAsText) {entry : Value × Value} {x : TiXmlElement}
    (hx : entryAsText d tableAsText entry = some x) {child : Child} {nested : Option (Option ℤ)}
    (hchild : parseElement (host files e) (parsed x) = .ok (child,nested)) {name value : Option Bytes}
    (hname : toUtf8 e child.name = .ok name) (hvalue : toUtf8 e child.value = .ok value) {reference : ℤ}
    (h : Shows d e entry (filled child name value reference)) :
    entryShown d (fun z => (files z).isSome) entry = true := by
  rw [entryAsText] at hx
  obtain ⟨k,hk,hx⟩ := Option.bind_eq_some_iff.mp hx
  obtain ⟨v,hv,hx⟩ := Option.bind_eq_some_iff.mp hx
  obtain rfl := Option.some.inj hx
  change parseElement _ (parsed (entryNode k v)) = _ at hchild
  rw [parseElement_entry] at hchild
  cases htext : keyText d entry.1 with
  | none =>
    rw [key_lost hclosed entry.1 htext none hk] at hchild
    cases hchild
  | some shown =>
    obtain ⟨k',hk',hread⟩ := key_read tableAsText entry.1 htext none
    obtain rfl := Option.some.inj (hk.symm.trans hk')
    rw [hread] at hchild
    cases hof : valueOf (host files e) (parsed v) with
    | error _ =>
      rw [hof] at hchild
      cases hchild
    | ok r =>
      obtain ⟨⟨shown',type⟩,nested'⟩ := r
      rw [hof] at hchild
      cases hchild
      have hnamed : (delivered shown).isSome = true := (toUtf8_isSome hname).symm.trans h.named
      have hvalued : shown'.isSome = true := (toUtf8_isSome hvalue).symm.trans h.valued
      obtain ⟨value',rfl⟩ := Option.isSome_iff_exists.mp hvalued
      obtain ⟨type',rfl⟩ := Option.isSome_iff_exists.mp h.typed
      refine Bool.and_eq_true_iff.mpr ⟨keyShown_iff.mpr ⟨shown,htext,?_⟩,?_⟩
      · simpa [delivered] using hnamed
      · exact (value_read_iff (host files e) hclosed entry.2 none).mp ⟨v,hv,_,_,_,hof⟩

/-- The loop over the entries: a variable for each, exactly if each is displayed. -/
theorem entries_read_iff (hclosed : Closed tableAsText) (vm stackLevel : ℕ)
    (entries : List (Value × Value))
    (s : State) :
    (∃ xs values t, entries.mapM (entryAsText d tableAsText) = some xs ∧
      parseElements (host files e) vm stackLevel (xs.map parsed) s = (some values,t) ∧
      List.Forall₂ (Shows d e) entries values) ↔
      ∀ entry ∈ entries, entryShown d (fun z => (files z).isSome) entry = true := by
  induction entries generalizing s with
  | nil => exact ⟨fun _ => nofun,fun _ => ⟨[],[],s,rfl,rfl,.nil⟩⟩
  | cons entry entries ih =>
    rw [List.forall_mem_cons]
    constructor
    · rintro ⟨xs,values,t,hxs,hparse,hshows⟩
      rw [List.mapM_cons] at hxs
      obtain ⟨x,hx,hxs⟩ := Option.bind_eq_some_iff.mp hxs
      obtain ⟨xs',hxs',hxs⟩ := Option.bind_eq_some_iff.mp hxs
      obtain rfl := Option.some.inj hxs
      rw [List.map_cons] at hparse
      obtain ⟨child,nested,name,value,rest,hchild,hname,hvalue,hrest,rfl⟩ := parseElements_cons hparse
      obtain ⟨hshow,hshows⟩ := List.forall₂_cons.mp hshows
      exact ⟨entry_read hclosed hx hchild hname hvalue hshow,(ih _).mp ⟨xs',rest,t,hxs',hrest,hshows⟩⟩
    · rintro ⟨hentry,hentries⟩
      obtain ⟨x,child,nested,name,value,hx,hchild,hname,hvalue,hshow⟩ :=
        entry_shown (e := e) hclosed hentry
      obtain ⟨xs,values,t,hxs,hparse,hshows⟩ :=
        (ih (nestedReference vm stackLevel s nested).2).mpr hentries
      refine ⟨x::xs,filled child name value (nestedReference vm stackLevel s nested).1 :: values,t,?_,?_,
        List.Forall₂.cons (hshow _) hshows⟩
      · rw [List.mapM_cons, hx, hxs]
        rfl
      · exact parseElements_goes hchild hname hvalue hparse

end Entries

/-- The document is read without a raise and answered by one successful response, which has a
variable for each entry. -/
def Answered (d : Debuggee) (files : ℤ → Option HandleBreak.File) (e : Encoding) (t : ℕ)
    (seq : ℕ) (reference : ℤ) (vm stackLevel : ℕ) (s : State) : Prop :=
  ∃ x values u s', expandTable d t = some x ∧
    parseVariable (host files e) (parsed x) vm stackLevel s = (some values,u) ∧
    List.Forall₂ (Shows d e) (d.entries t) values ∧
    expandRet (host files e) seq reference vm stackLevel true (.node (document x)) s = (s',false) ∧
    s'.responses = s.responses ++ [⟨seq,true⟩]

theorem expandTable_iff (d : Debuggee) (t : ℕ) {x : TiXmlElement} :
    expandTable d t = some x ↔ ∃ xs, (d.entries t).mapM (entryAsText d (getTableAsText d 0)) = some xs ∧
      tableNode (text "table") (emptyAttribute d t) xs = x := by
  rw [expandTable, getValueAsText, getTableAsText]
  exact Option.bind_eq_some_iff.trans (by simp)

/-- What the handler does with values that all have a name. -/
theorem expandRet_answers {host : Host} {reference : ℤ} {vm stackLevel : ℕ} {s u : State}
    (h : (s.«variables» reference).isSome = true) {x : TiXmlElement} {values : List Child}
    (hparse : parseVariable host (parsed x) vm stackLevel s = (some values,u))
    (hnamed : ∀ c ∈ values, c.name.isSome = true) (seq : ℕ) :
    ∃ s', expandRet host seq reference vm stackLevel true (.node (document x)) s = (s',false) ∧
      s'.responses = s.responses ++ [⟨seq,true⟩] := by
  obtain ⟨«variable»,hv⟩ := Option.isSome_iff_exists.mp h
  have hsorts : sorts values = true := by
    rw [sorts, Bool.or_eq_true]
    exact .inr (List.all_eq_true.mpr hnamed)
  have hsame := (OneResponse.parseVariable_names host (s := s) (parsed x) vm stackLevel).1
  rw [hparse] at hsame
  have hchild : (document x).child 1 = .ok (parsed x) := rfl
  simp only [expandRet, hv, hchild, hparse, hsorts, Bool.not_true, Bool.false_eq_true, if_false,
    Bool.and_false]
  refine ⟨_,rfl,?_⟩
  rw [State.respond, ← hsame.2.1]
  split <;> rfl

theorem shows_named {d : Debuggee} {e : Encoding} {entries : List (Value × Value)} {values : List Child}
    (h : List.Forall₂ (Shows d e) entries values) : ∀ c ∈ values, c.name.isSome = true := by
  induction h with
  | nil => exact nofun
  | cons hshow _ ih => exact List.forall_mem_cons.mpr ⟨hshow.named,ih⟩

theorem answered_iff (d : Debuggee) (files : ℤ → Option HandleBreak.File) (e : Encoding) (t : ℕ)
    (seq : ℕ) (reference : ℤ) (vm stackLevel : ℕ) (s : State)
    (h : (s.«variables» reference).isSome = true) :
    Answered d files e t seq reference vm stackLevel s ↔
      ∀ entry ∈ d.entries t, entryShown d (fun z => (files z).isSome) entry = true := by
  rw [← entries_read_iff (e := e) (closed_table d) vm stackLevel (d.entries t) s]
  have hroot (xs : List TiXmlElement) :
      parseVariable (host files e) (parsed (tableNode (text "table") (emptyAttribute d t) xs)) vm stackLevel s =
        parseElements (host files e) vm stackLevel (xs.map parsed) s := by
    rw [← parsedAll_map]
    rfl
  constructor
  · rintro ⟨x,values,u,s',hx,hparse,hshows,-,-⟩
    obtain ⟨xs,hxs,rfl⟩ := (expandTable_iff d t).mp hx
    exact ⟨xs,values,u,hxs,(hroot xs) ▸ hparse,hshows⟩
  · rintro ⟨xs,values,u,hxs,hparse,hshows⟩
    rw [← hroot] at hparse
    obtain ⟨s',hanswer,hresponses⟩ := expandRet_answers h hparse (shows_named hshows) seq
    exact ⟨_,values,u,s',(expandTable_iff d t).mpr ⟨xs,hxs,rfl⟩,hparse,hshows,hanswer,hresponses⟩

def asked : State := (createVariable Requests.initial 1 0 none (some 1)).2

def one : Value := .number ⟨text "1",by decide⟩

def described : Debuggee where
  entries := fun t => if t = 0 then
    [(.string (text "x"),.table 1),(one,.userdata ⟨none,text "1A",some (.returned (some (text "object")))⟩),
     (.function (-1) (-1),.watched ⟨none,text "2B",none⟩ [some (text "Point")] one)] else []
  cacheTable := fun t => t
  wideCharToMultiByte := fun _ => []

theorem answered_iff_described :
    Answered described (fun _ => none) ⟨false,none⟩ 0 7 1 1 0 asked :=
  (answered_iff described (fun _ => none) ⟨false,none⟩ 0 7 1 1 0 asked rfl).mpr (by decide)

def tableKeyed : Debuggee := ⟨fun t => if t = 0 then [(.table 1,one)] else [],fun t => t,fun _ => []⟩

theorem tableKeyed_not_answered : (asked.«variables» 1).isSome = true ∧
    ¬ Answered tableKeyed (fun _ => none) ⟨false,none⟩ 0 7 1 1 0 asked := by
  refine ⟨rfl,?_⟩
  rintro ⟨x,values,u,s',hx,hparse,-⟩
  have hraises : ((expandTable tableKeyed 0).bind
      (fun x => (parseVariable (host (fun _ => none) ⟨false,none⟩) (parsed x) 1 0 asked).1)) = none := by
    decide +kernel
  rw [hx, Option.bind_some, hparse] at hraises
  cases hraises

end Vecoda.ExpandedTable

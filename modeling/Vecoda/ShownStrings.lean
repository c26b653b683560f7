import Vecoda.ExpandedTable
import Vecoda.PrintedDocuments

/-!
# Strings in the variables view

A string as the result of an evaluation and as a value in an expanded table, from
its document through the printer and the parser to the text that is shown. It is
shown as it is, between quotes, exactly if it is readable; any other string
changes the document or makes the parser fail.
-/

set_option autoImplicit false

namespace Vecoda.ShownStrings
open MessagePipe LuaText XmlSimple XmlPrinter TextReferences PrintedTags PrintedDocuments TableDocument
open EventStream Variables ExpandedTable

section Written

theorem sprintfD_value (z : ℤ) : ∀ b ∈ sprintfD z, (isDigit b || b = byte '-') = true := by
  have hdecimal (n : ℕ) : ∀ b ∈ Framing.decimal n, (isDigit b || b = byte '-') = true :=
    fun b hb => by rw [Framing.decimal_digits n b hb]; rfl
  cases z with
  | ofNat n => exact hdecimal n
  | negSucc n =>
    intro b hb
    rcases List.mem_cons.mp hb with rfl | hb
    · decide
    · exact hdecimal _ b hb

theorem writable_value (data type : Bytes) : Writable (writeValue data type) :=
  ⟨label_of (by decide),List.forall_mem_nil _,label_of (by decide),label_of (by decide),trivial⟩

theorem writable_function (script line : ℤ) : Writable (writeFunction script line) :=
  ⟨label_of (by decide),List.forall_mem_nil _,label_of (by decide),label_of (by decide),trivial⟩

theorem writable_error (message : Option Bytes) : Writable (errorAsText message) := label_of (by decide)

theorem writable_userdata (displayAsKey : Bool) (u : Userdata) : Writable (userdataAsText displayAsKey u) := by
  rw [userdataAsText]
  split
  · exact writable_error _
  · exact writable_value _ _
  · exact writable_value _ _

variable {d : Debuggee} {tableAsText : ℕ → Bytes → Option TiXmlElement}

def Writes (tableAsText : ℕ → Bytes → Option TiXmlElement) : Prop :=
  ∀ t typeName x, tableAsText t typeName = some x → Writable x

theorem writable_getValueAsText (h : Writes tableAsText) (displayAsKey : Bool) (v : Value)
    (typeName : Option Bytes) {x : TiXmlElement}
    (hx : getValueAsText d tableAsText displayAsKey v typeName = some x) : Writable x := by
  induction v generalizing typeName with
  | nil | boolean _ | number _ | string _ | thread | cdata =>
    cases hx
    exact writable_value _ _
  | table t => exact h t _ x hx
  | function script line =>
    cases hx
    exact writable_function _ _
  | userdata u =>
    cases hx
    exact writable_userdata _ _
  | unwatchable u message =>
    cases hx
    exact writable_error _
  | watched u others last ih =>
    rw [getValueAsText] at hx
    obtain ⟨className,-,hx⟩ := Option.bind_eq_some_iff.mp hx
    exact ih (some className) hx

theorem writable_entry (h : Writes tableAsText) (entry : Value × Value) {x : TiXmlElement}
    (hx : entryAsText d tableAsText entry = some x) : Writable x := by
  rw [entryAsText] at hx
  obtain ⟨key,hkey,hx⟩ := Option.bind_eq_some_iff.mp hx
  obtain ⟨value,hvalue,hx⟩ := Option.bind_eq_some_iff.mp hx
  obtain rfl := Option.some.inj hx
  have hnone : ∀ a ∈ ([] : List (Bytes × Bytes)), PlainAttribute a := List.forall_mem_nil _
  exact ⟨label_of (by decide),hnone,
    ⟨label_of (by decide),hnone,writable_getValueAsText h true entry.1 none hkey,trivial⟩,
    ⟨label_of (by decide),hnone,writable_getValueAsText h false entry.2 none hvalue,trivial⟩,trivial⟩

theorem plain_number {name : Bytes} (hname : name ≠ []) (hall : ∀ b ∈ name, isAlnum b = true) (z : ℤ) :
    PlainAttribute (name,sprintfD z) := ⟨hname,hall,sprintfD_value z⟩

theorem plain_empty (d : Debuggee) (t : ℕ) : ∀ a ∈ emptyAttribute d t, PlainAttribute a := by
  rw [emptyAttribute]
  split
  · intro a ha
    rw [List.mem_singleton.mp ha]
    exact plain_number (by decide) (List.all_eq_true.mp (by decide)) 1
  · exact List.forall_mem_nil _

theorem writable_tableNode {typeName : Bytes} {as : List (Bytes × Bytes)} (has : ∀ a ∈ as, PlainAttribute a)
    {elements : List TiXmlElement} (h : WritableAll elements) : Writable (tableNode typeName as elements) :=
  ⟨label_of (by decide),has,label_of (by decide),h⟩

/-- The attributes of a table that is not expanded. -/
theorem plain_unexpanded (d : Debuggee) (t : ℕ) : ∀ a ∈ (if (d.entries t).isEmpty then emptyAttribute d t
    else [(text "reference",sprintfD (d.cacheTable t))]), PlainAttribute a := by
  split
  · exact plain_empty d t
  · intro a ha
    rw [List.mem_singleton.mp ha]
    exact plain_number (by decide) (List.all_eq_true.mp (by decide)) _

theorem writes_closed (d : Debuggee) : Writes (getTableAsText d 0) := by
  intro t typeName x hx
  cases hx
  exact writable_tableNode (plain_unexpanded d t) trivial

theorem writableAll_entries (h : Writes tableAsText) {entries : List (Value × Value)} {xs : List TiXmlElement}
    (hxs : entries.mapM (entryAsText d tableAsText) = some xs) : WritableAll xs := by
  induction entries generalizing xs with
  | nil =>
    cases hxs
    trivial
  | cons entry entries ih =>
    rw [List.mapM_cons] at hxs
    obtain ⟨x,hx,hxs⟩ := Option.bind_eq_some_iff.mp hxs
    obtain ⟨xs',hxs',hxs⟩ := Option.bind_eq_some_iff.mp hxs
    obtain rfl := Option.some.inj hxs
    exact ⟨writable_entry h entry hx,ih hxs'⟩

end Written

section Shown

def tab : Bytes := text "\t"

def spaces : Bytes := text "    "

def quoted (s : Bytes) : Bytes := text "\"" ++ s ++ text "\""

theorem arrivedAll_eq (xs : List TiXmlElement) : arrivedAll xs = xs.map arrived := by
  induction xs with
  | nil => rfl
  | cons x xs ih => rw [arrivedAll, ih, List.map_cons]

theorem textsAll_append (xs ys : List TiXmlElement) : textsAll (xs ++ ys) = textsAll xs ++ textsAll ys := by
  induction xs with
  | nil => rfl
  | cons x xs ih => rw [List.cons_append, textsAll, textsAll, ih, List.append_assoc]

theorem textsAll_single (x : TiXmlElement) : textsAll [x] = texts x := List.append_nil _

theorem readable_value {data type : Bytes} (hdata : Readable data) (htype : Readable type) :
    ∀ data' ∈ texts (writeValue data type), Readable data' := by
  have htexts : texts (writeValue data type) = [data,type] := rfl
  rw [htexts]
  simp only [List.forall_mem_cons]
  exact ⟨hdata,htype,List.forall_mem_nil _⟩

variable (d : Debuggee)

def resultAsText (v : Value) : Option TiXmlElement := getValueAsText d (getTableAsText d 0) false v none

def received (indent : Bytes) (document : List TiXmlElement) : Lua (Bool × Root) :=
  parseEvaluateResult (some true) (some (print indent document))

/-- The string is the result of an evaluation: its document arrives as it was made, and is answered
with the quoted string. -/
def ShownResult (host : Host) (s : Bytes) : Prop :=
  ∃ x, resultAsText d (.string s) = some x ∧
    received tab [x] = .ok (true,.node (arrivedDocument [x])) ∧
    evaluated host (arrivedDocument [x]) = .ok (.value (some (quoted s)) (some (text "string")))

/-- The string is the value of an entry of a table: the document of the table arrives as it was made,
and the entry is read as a variable with the quoted string. -/
def ShownField (host : Host) (t entry : ℕ) (s : Bytes) : Prop :=
  ∃ x, expandTable d t = some x ∧ received spaces [x] = .ok (true,.node (arrivedDocument [x])) ∧
    ∃ el child nested, (arrived x).child (entry+2) = .ok el ∧ parseElement host el = .ok (child,nested) ∧
      host.toUtf8 child.value = .ok (some (quoted s)) ∧ child.type = some (text "string")

def Told (entries : List (Value × Value)) : Prop :=
  ∀ entry ∈ entries, ∃ x, entryAsText d (getTableAsText d 0) entry = some x ∧ ∀ data ∈ texts x, Readable data

variable {d}

theorem print_ne_nil (indent : Bytes) (x : TiXmlElement) (xs : List TiXmlElement) : print indent (x::xs) ≠ [] := by
  rw [print, printAll]
  cases x <;> simp [printElement]

theorem received_iff (indent : Bytes) (x : TiXmlElement) (xs : List TiXmlElement) (r : Node) :
    received indent (x::xs) = .ok (true,.node r) ↔ parseXmlText (print indent (x::xs)) = .ok r := by
  rw [received, parseEvaluateResult, if_neg (fun h => print_ne_nil indent x xs (Option.some.inj h)), Option.map_some]
  cases parseXmlText (print indent (x::xs)) with
  | error _ => simp
  | ok root => simp

theorem told_written {entries : List (Value × Value)} (h : Told d entries) :
    ∃ xs, entries.mapM (entryAsText d (getTableAsText d 0)) = some xs ∧ xs.length = entries.length ∧
      ∀ data ∈ textsAll xs, Readable data := by
  induction entries with
  | nil => exact ⟨[],rfl,rfl,List.forall_mem_nil _⟩
  | cons entry entries ih =>
    obtain ⟨⟨x,hx,hread⟩,hentries⟩ := List.forall_mem_cons.mp h
    obtain ⟨xs,hxs,hlength,hreads⟩ := ih hentries
    refine ⟨x::xs,?_,congrArg Nat.succ hlength,?_⟩
    · rw [List.mapM_cons, hx, hxs]
      rfl
    · rw [textsAll]
      exact List.forall_mem_append.mpr ⟨hread,hreads⟩

theorem stringAsText_quoted {s : Bytes} (h : 0 ∉ s) : stringAsText d false s = quoted s := by
  rw [stringAsText, getAsciiString, if_pos h]
  rfl

theorem hollow_quoted (s : Bytes) : hollow (quoted s) = false := rfl

theorem quoted_arrives (s : Bytes) : arrivedText (quoted s) = some (quoted s) := by
  rw [arrivedText, hollow_quoted]
  rfl

theorem evaluated_value (host : Host) (data type : Bytes) :
    evaluated host (arrivedDocument [writeValue data type]) = (do
      return .value (← host.toUtf8 (arrivedText data)) (arrivedText type)) := rfl

theorem shown_result_iff {host : Host} (hhost : host.toUtf8 = .ok) {s : Bytes} (hs : 0 ∉ s) :
    ShownResult d host s ↔ Readable (quoted s) := by
  have hx : resultAsText d (.string s) = some (writeValue (quoted s) (text "string")) := by
    rw [resultAsText, getValueAsText, stringAsText_quoted hs]
    rfl
  have hwritable : WritableAll [writeValue (quoted s) (text "string")] := ⟨writable_value _ _,trivial⟩
  have hparse := (received_iff tab _ _ _).trans (@parse_print_iff tab (by decide) _ hwritable)
  have htype : Readable (text "string") := readable_plain (by decide)
  constructor
  · rintro ⟨x,hx',hread,-⟩
    obtain rfl := Option.some.inj (hx.symm.trans hx')
    exact hparse.mp hread _ List.mem_cons_self
  · intro h
    refine ⟨_,hx,hparse.mpr ?_,?_⟩
    · rw [textsAll_single]
      exact readable_value h htype
    · rw [evaluated_value, quoted_arrives, hhost]
      rfl

structure ToldKey (d : Debuggee) (k : Value) : Prop where
  text : (keyText d k).isSome = true
  readable : ∀ x, getValueAsText d (getTableAsText d 0) true k none = some x → ∀ data ∈ texts x, Readable data

theorem told_key {k : Value} (h : ToldKey d k) :
    ∃ x name, getValueAsText d (getTableAsText d 0) true k none = some x ∧
      (∀ data ∈ texts x, Readable data) ∧ keyName (arrived x) = .ok name := by
  obtain ⟨shown,hshown⟩ := Option.isSome_iff_exists.mp h.text
  obtain ⟨tag,first,second,other,hx⟩ := key_written (getTableAsText d 0) k hshown none
  exact ⟨_,arrivedText shown,hx,h.readable _ hx,rfl⟩

theorem parseElement_arrived (host : Host) (key value : TiXmlElement) :
    parseElement host (arrived (entryNode key value)) = (do
      let name ← keyName (arrived key)
      let ((shown,type),nested) ← valueOf host (arrived value)
      return (⟨name,shown,type,0⟩,nested)) :=
  parseElement_children host rfl rfl rfl rfl

/-- The elements of a table around one of its entries. -/
theorem expandTable_around {t : ℕ} {before after : List (Value × Value)} {entry : Value × Value}
    (hentries : d.entries t = before ++ entry :: after) (hothers : Told d (before ++ after))
    {x : TiXmlElement} (hx : entryAsText d (getTableAsText d 0) entry = some x) :
    ∃ bs as, expandTable d t =
        some (tableNode (text "table") (emptyAttribute d t) (bs ++ x :: as)) ∧
      bs.length = before.length ∧ WritableAll (bs ++ x :: as) ∧
      ∀ data ∈ textsAll (bs ++ as), Readable data := by
  obtain ⟨hbefore,hafter⟩ := List.forall_mem_append.mp hothers
  obtain ⟨bs,hbs,hlength,hread⟩ := told_written hbefore
  obtain ⟨as,has,-,hread'⟩ := told_written hafter
  have hall : (d.entries t).mapM (entryAsText d (getTableAsText d 0)) = some (bs ++ x :: as) := by
    rw [hentries, List.mapM_append, hbs, List.mapM_cons, hx, has]
    rfl
  refine ⟨bs,as,(expandTable_iff d t).mpr ⟨_,hall,rfl⟩,hlength,writableAll_entries (writes_closed d) hall,?_⟩
  rw [textsAll_append]
  exact List.forall_mem_append.mpr ⟨hread,hread'⟩

/-- A table is readable around an entry if the entry is. -/
theorem table_readable_iff {as bs : List TiXmlElement} (hread : ∀ data ∈ textsAll (bs ++ as), Readable data)
    (attributes : List (Bytes × Bytes)) (x : TiXmlElement) :
    (∀ data ∈ textsAll [tableNode (text "table") attributes (bs ++ x :: as)], Readable data) ↔
      ∀ data ∈ texts x, Readable data := by
  have htype : Readable (text "table") := readable_plain (by decide)
  have htexts : textsAll [tableNode (text "table") attributes (bs ++ x :: as)] =
      text "table" :: (textsAll bs ++ (texts x ++ textsAll as)) := by
    rw [← textsAll, ← textsAll_append]
    exact List.append_nil _
  rw [textsAll_append] at hread
  obtain ⟨hbefore,hafter⟩ := List.forall_mem_append.mp hread
  rw [htexts]
  simp only [List.forall_mem_cons, List.forall_mem_append]
  exact ⟨fun h => h.2.2.1,fun h => ⟨htype,hbefore,h,hafter⟩⟩

theorem child_around (typeName : Bytes) (attributes : List (Bytes × Bytes)) (bs as : List TiXmlElement)
    (x : TiXmlElement) :
    (arrived (tableNode typeName attributes (bs ++ x :: as))).child (bs.length+2) = .ok (arrived x) := by
  have hchildren : (arrived (tableNode typeName attributes (bs ++ x :: as))).children =
      arrived (writeXmlNode "type" typeName) :: (bs.map arrived ++ arrived x :: as.map arrived) := by
    rw [tableNode, arrived, arrivedAll_eq]
    simp [Node.children]
  rw [Node.child, hchildren]
  simp

theorem written_string {s : Bytes} (h : 0 ∉ s) : getValueAsText d (getTableAsText d 0) false (.string s) none =
    some (writeValue (quoted s) (text "string")) := by
  rw [getValueAsText, stringAsText_quoted h]
  rfl

theorem texts_entry (key value : TiXmlElement) : texts (entryNode key value) = texts key ++ texts value := by
  simp only [entryNode, texts, textsAll, List.append_nil]

theorem told_of_readable {entries : List (Value × Value)} {xs : List TiXmlElement}
    (hxs : entries.mapM (entryAsText d (getTableAsText d 0)) = some xs)
    (h : ∀ data ∈ textsAll xs, Readable data) : Told d entries := by
  induction entries generalizing xs with
  | nil => exact List.forall_mem_nil _
  | cons entry entries ih =>
    rw [List.mapM_cons] at hxs
    obtain ⟨x,hx,hxs⟩ := Option.bind_eq_some_iff.mp hxs
    obtain ⟨xs',hxs',hxs⟩ := Option.bind_eq_some_iff.mp hxs
    obtain rfl := Option.some.inj hxs
    rw [textsAll] at h
    obtain ⟨hfirst,hlater⟩ := List.forall_mem_append.mp h
    exact List.forall_mem_cons.mpr ⟨⟨x,hx,hfirst⟩,ih hxs' hlater⟩

/-- A key whose name is read has a text. -/
theorem keyText_of_read {k : Value} {x : TiXmlElement} {name : Option Bytes}
    (hx : getValueAsText d (getTableAsText d 0) true k none = some x) (hname : keyName (arrived x) = .ok name) :
    (keyText d k).isSome = true := by
  by_contra hnone
  rcases key_unwritten (closed_table d) k (Option.not_isSome_iff_eq_none.mp hnone) none hx with ⟨_,_,rfl⟩ | ⟨_,rfl⟩
  · cases hname
  · cases hname

/-- A reply that arrives has no unreadable text, neither of an entry nor of the key. -/
theorem told_of_shown {host : Host} {t : ℕ} {before after : List (Value × Value)} {k : Value} {s : Bytes}
    (hentries : d.entries t = before ++ (k,.string s) :: after) (h : ShownField d host t before.length s) :
    Told d (before ++ after) ∧ ToldKey d k := by
  obtain ⟨x,hx,harrives,el,child,nested,hel,hread,-⟩ := h
  obtain ⟨xs,hxs,rfl⟩ := (expandTable_iff d t).mp hx
  have hwritable : Writable (tableNode (text "table") (emptyAttribute d t) xs) :=
    writable_tableNode (plain_empty d t) (writableAll_entries (writes_closed d) hxs)
  have htexts : ∀ data ∈ textsAll xs, Readable data := by
    have hall := (@parse_print_iff spaces (by decide) [_] ⟨hwritable,trivial⟩).mp
      ((received_iff spaces _ _ _).mp harrives)
    rw [textsAll_single, tableNode, texts, textsAll] at hall
    exact (List.forall_mem_append.mp hall).2
  -- the elements before the entry, its own, and those behind it
  rw [hentries, List.mapM_append] at hxs
  obtain ⟨bs,hbs,hxs⟩ := Option.bind_eq_some_iff.mp hxs
  obtain ⟨ys,hys,hxs⟩ := Option.bind_eq_some_iff.mp hxs
  obtain rfl := Option.some.inj hxs
  rw [List.mapM_cons] at hys
  obtain ⟨y,hy,hys⟩ := Option.bind_eq_some_iff.mp hys
  obtain ⟨as,has,hys⟩ := Option.bind_eq_some_iff.mp hys
  obtain rfl := Option.some.inj hys
  rw [textsAll_append, textsAll] at htexts
  obtain ⟨hbefore,hrest⟩ := List.forall_mem_append.mp htexts
  obtain ⟨hown,hafter⟩ := List.forall_mem_append.mp hrest
  have htold := told_of_readable hbs hbefore
  obtain ⟨bs',hbs',hlength,-⟩ := told_written htold
  obtain rfl := Option.some.inj (hbs.symm.trans hbs')
  refine ⟨List.forall_mem_append.mpr ⟨htold,told_of_readable has hafter⟩,?_⟩
  rw [entryAsText] at hy
  obtain ⟨key,hkey,hy⟩ := Option.bind_eq_some_iff.mp hy
  obtain ⟨value,-,hy⟩ := Option.bind_eq_some_iff.mp hy
  obtain rfl := Option.some.inj hy
  rw [← hlength, child_around] at hel
  obtain rfl := Except.ok.inj hel
  change parseElement host (arrived (entryNode key value)) = _ at hread
  rw [parseElement_arrived] at hread
  obtain ⟨name,hname,-⟩ := bind_eq_ok.mp hread
  refine ⟨keyText_of_read hkey hname,fun x hx => ?_⟩
  obtain rfl := Option.some.inj (hkey.symm.trans hx)
  exact (List.forall_mem_append.mp (texts_entry key value ▸ hown)).1

theorem shown_field_iff {host : Host} (hhost : host.toUtf8 = .ok) {t : ℕ} {before after : List (Value × Value)}
    {k : Value} {s : Bytes} (hentries : d.entries t = before ++ (k,.string s) :: after)
    (hothers : Told d (before ++ after)) (hkey : ToldKey d k) (hs : 0 ∉ s) :
    ShownField d host t before.length s ↔ Readable (quoted s) := by
  obtain ⟨y,name,hy,hyread,hname⟩ := told_key hkey
  have hentry : entryAsText d (getTableAsText d 0) (k,.string s) =
      some (entryNode y (writeValue (quoted s) (text "string"))) := by
    rw [entryAsText, hy, written_string hs]
    rfl
  obtain ⟨bs,as,hexpand,hlength,hwrites,hread⟩ := expandTable_around hentries hothers hentry
  have hwritable : Writable (tableNode (text "table") (emptyAttribute d t) _) :=
    writable_tableNode (plain_empty d t) hwrites
  have hparse := (received_iff spaces _ _ _).trans (@parse_print_iff spaces (by decide) [_] ⟨hwritable,trivial⟩)
  rw [table_readable_iff hread, texts_entry] at hparse
  have htype : Readable (text "string") := readable_plain (by decide)
  constructor
  · rintro ⟨x,hx,harrives,-⟩
    obtain rfl := Option.some.inj (hexpand.symm.trans hx)
    exact hparse.mp harrives _ (List.mem_append_right _ List.mem_cons_self)
  · intro h
    have htexts := List.forall_mem_append.mpr ⟨hyread,readable_value h htype⟩
    refine ⟨_,hexpand,hparse.mpr htexts,_,⟨name,some (quoted s),some (text "string"),0⟩,none,
      hlength ▸ child_around _ _ _ _ _,?_,by rw [hhost],rfl⟩
    rw [parseElement_arrived, hname]
    rfl

/-- A string is shown as it is, as a result and in a table, exactly if it is readable, and so are the
other texts of the table, with the key displayed. -/
theorem string_shown_iff (files : ℤ → Option HandleBreak.File) (e : Encoding) (he : e.gbk = false)
    (d : Debuggee) (t : ℕ) (before after : List (Value × Value)) (k : Value) (s : Bytes)
    (hentries : d.entries t = before ++ (k,.string s) :: after) (hs : 0 ∉ s) :
    ShownResult d (host files e) s ∧ ShownField d (host files e) t before.length s ↔
      Readable (quoted s) ∧ Told d (before ++ after) ∧ ToldKey d k := by
  have hhost : (host files e).toUtf8 = .ok := by
    funext str
    simp only [host, toUtf8, he, Bool.false_eq_true, if_false]
  rw [shown_result_iff hhost hs]
  constructor
  · rintro ⟨hreadable,hfield⟩
    exact ⟨hreadable,told_of_shown hentries hfield⟩
  · rintro ⟨hreadable,hothers,hkey⟩
    exact ⟨hreadable,(shown_field_iff hhost hentries hothers hkey hs).mpr hreadable⟩

def holding (v : Value) : Debuggee :=
  ⟨fun t => if t = 0 then [(.string (text "k"),v)] else [],fun t => t,fun _ => []⟩

theorem told_holding (v : Value) : ToldKey (holding v) (.string (text "k")) := by
  have hx : getValueAsText (holding v) (getTableAsText (holding v) 0) true (.string (text "k")) none =
      some (writeValue (text "k") (text "string")) := rfl
  refine ⟨rfl,fun x hx' => ?_⟩
  obtain rfl := Option.some.inj (hx.symm.trans hx')
  exact readable_value (readable_plain (by decide)) (readable_plain (by decide))

theorem string_shown_iff_markup :
    ShownResult (holding (.string (text "<a href='x'>&amp;\n"))) (host (fun _ => none) ⟨false,none⟩)
        (text "<a href='x'>&amp;\n") ∧
      ShownField (holding (.string (text "<a href='x'>&amp;\n"))) (host (fun _ => none) ⟨false,none⟩) 0 0
        (text "<a href='x'>&amp;\n") :=
  (string_shown_iff (fun _ => none) ⟨false,none⟩ rfl (holding (.string (text "<a href='x'>&amp;\n"))) 0 [] []
    (.string (text "k")) (text "<a href='x'>&amp;\n") rfl (by decide)).mpr
    ⟨by decide +kernel,List.forall_mem_nil _,told_holding _⟩

theorem reference_not_shown : 0 ∉ text "&#x41;" ∧
    ¬ ShownResult (holding (.string (text "&#x41;"))) (host (fun _ => none) ⟨false,none⟩) (text "&#x41;") := by
  refine ⟨by decide,?_⟩
  rw [shown_result_iff rfl (by decide)]
  decide +kernel

example : ¬ Readable (quoted (text "&#xFFFF;")) ∧ ¬ Readable (quoted (text "&#x&quot;")) ∧
    ¬ Readable (quoted (text "&#x<b")) ∧ Readable (quoted (text "&#x< b")) := by decide +kernel

end Shown

end Vecoda.ShownStrings

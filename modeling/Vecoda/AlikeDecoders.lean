import Vecoda.FirstResults

/-!
# One value, two decoders

A value as the result of an evaluation, which `evaluateRet` reads, and as the
value of an entry of a table, which `parseVariable` reads. Both show it alike and
as it is exactly if what is written for it gets to them; the script with index
zero is taken for none by both, and a function's text is converted by one of them
only.
-/

set_option autoImplicit false

namespace Vecoda.AlikeDecoders
open MessagePipe LuaText XmlSimple XmlPrinter TextReferences PrintedTags PrintedDocuments OpenElements
open TableDocument EventStream Variables ExpandedTable ShownStrings FirstResults

section Shown

def body : Evaluated → Option (Option Bytes × Option Bytes)
  | .emptyTable => some (some (text "\x7b\x7d"),some (text "table"))
  | .table _ => some (some (text "table"),some (text "table"))
  | .value result type => some (result,type)
  | .function result => some (some result,some (text "function"))
  | .nothing => none

variable (host : Host) (d : Debuggee)

def ResultShows (v : Value) (shown : Option Bytes × Option Bytes) : Prop :=
  ∃ x r a, resultAsText d v = some x ∧ received tab [x] = .ok (true,.node r) ∧
    evaluated host r = .ok a ∧ body a = some shown

def FieldShows (t entry : ℕ) (shown : Option Bytes × Option Bytes) : Prop :=
  ∃ x r root el child nested, expandTable d t = some x ∧ received spaces [x] = .ok (true,.node r) ∧
    r.child 1 = .ok root ∧ root.name = some (text "table") ∧ root.child (entry+2) = .ok el ∧
    parseElement host el = .ok (child,nested) ∧ host.toUtf8 child.value = .ok shown.1 ∧ child.type = shown.2

def located (file : HandleBreak.File) (line : ℤ) : Bytes :=
  text "function " ++ file.path.getD (text "<Unknow>") ++ text ":" ++ text (toString (line+1))

variable (files : ℤ → Option HandleBreak.File) (e : Encoding)

/-- What is shown is the value's own text and type; of a function of a registered script, where it is
defined. -/
def Truthful : Written → Option Bytes × Option Bytes → Prop
  | .value data type, shown => shown = (some data,some type)
  | .function script line, shown => shown.2 = some (text "function") ∧
      (0 ≤ script → ∀ file, files script = some file → shown.1 = some (located file line))
  | .table t _, shown =>
    shown = (some (if (d.entries t).isEmpty then text "\x7b\x7d" else text "table"),some (text "table"))
  | .error _, _ => False

/-- Both show what is true of the value, as far as no encoding is converted, and the same where it is. -/
structure Shown (t entry : ℕ) (v : Value) (w : Written) : Prop where
  truthful : ∃ shown, ResultShows ⟨files,.ok⟩ d v shown ∧ FieldShows ⟨files,.ok⟩ d t entry shown ∧
    Truthful d files w shown
  same : ∃ shown, ResultShows (ExpandedTable.host files e) d v shown ∧
    FieldShows (ExpandedTable.host files e) d t entry shown

def Alike (t entry : ℕ) (v : Value) : Prop :=
  ∃ w, resultAsText d v = some (w.element d) ∧ Shown d files e t entry v w

def Suits (t : ℕ) : Written → Prop
  | .value data type => Arrives data ∧ Arrives type
  | .function script line => (script < 0 ∨ script = 0 ∧ files script = none) ∨
      0 < script ∧ ∃ file, files script = some file ∧
        toUtf8 e (some (located file line)) = .ok (some (located file line))
  | .table u typeName =>
    (∃ r, parseXmlText (print tab [tableNode typeName (closedAttributes d u) []]) = .ok r) ∧
      ∃ x r, expandTable d t = some x ∧ parseXmlText (print spaces [x]) = .ok r
  | .error _ => False

end Shown

section Fields

variable {d : Debuggee}

/-- The document of a table around an entry: what is written for its key has two texts. -/
structure Around (d : Debuggee) (t entry : ℕ) (x : TiXmlElement) where
  before : List TiXmlElement
  after : List TiXmlElement
  tag : Bytes
  first : Bytes
  second : Bytes
  shown : Bytes
  other : Bytes
  expanded : expandTable d t = some (tableNode (text "table") (emptyAttribute d t)
    (before ++ entryNode (.node tag [] [.leaf first shown,.leaf second other]) x :: after))
  position : before.length = entry
  writable : WritableAll (before ++ entryNode (.node tag [] [.leaf first shown,.leaf second other]) x :: after)
  told : ∀ data ∈ textsAll (before ++ after), Readable data
  key : Readable shown ∧ Readable other

theorem around {t : ℕ} {before after : List (Value × Value)} {k v : Value}
    (hentries : d.entries t = before ++ (k,v) :: after) (hothers : Told d (before ++ after))
    (hkey : ToldKey d k) {x : TiXmlElement} (hx : resultAsText d v = some x) :
    Nonempty (Around d t before.length x) := by
  obtain ⟨shown,hshown⟩ := Option.isSome_iff_exists.mp hkey.text
  obtain ⟨tag,first,second,other,hk⟩ := key_written (getTableAsText d 0) k hshown none
  have hentry : entryAsText d (getTableAsText d 0) (k,v) =
      some (entryNode (.node tag [] [.leaf first shown,.leaf second other]) x) := by
    rw [entryAsText, hk]
    change (getValueAsText d (getTableAsText d 0) false v none >>= _) = _
    rw [show getValueAsText d (getTableAsText d 0) false v none = some x from hx]
    rfl
  obtain ⟨bs,as,hexpand,hlength,hwrites,hread⟩ := expandTable_around hentries hothers hentry
  have hreadable := hkey.readable _ hk
  have htexts : texts (.node tag [] [.leaf first shown,.leaf second other]) = [shown,other] := rfl
  rw [htexts] at hreadable
  exact ⟨⟨bs,as,tag,first,second,shown,other,hexpand,hlength,hwrites,hread,
    hreadable _ List.mem_cons_self,hreadable _ (List.mem_cons_of_mem _ List.mem_cons_self)⟩⟩

variable {t entry : ℕ} {x : TiXmlElement}

namespace Around

def keyElement (A : Around d t entry x) : TiXmlElement :=
  .node A.tag [] [.leaf A.first A.shown,.leaf A.second A.other]

def document (A : Around d t entry x) : TiXmlElement :=
  tableNode (text "table") (emptyAttribute d t) (A.before ++ entryNode A.keyElement x :: A.after)

theorem document_writable (A : Around d t entry x) : Writable A.document :=
  writable_tableNode (plain_empty d t) A.writable

/-- The document arrives if the value's texts are readable. -/
theorem arrives (A : Around d t entry x) (h : ∀ data ∈ texts x, Readable data) :
    received spaces [A.document] = .ok (true,.node (arrivedDocument [A.document])) := by
  refine (received_iff spaces _ [] _).mpr (parse_readable (by decide) ⟨A.document_writable,trivial⟩ ?_)
  apply (table_readable_iff A.told _ _).mpr
  have htexts : texts (entryNode A.keyElement x) = A.shown :: A.other :: texts x := by
    simp [entryNode, texts, textsAll, keyElement]
  rw [htexts]
  simp only [List.forall_mem_cons]
  exact ⟨A.key.1,A.key.2,h⟩

/-- Then the entry is read from what arrives of the value. -/
theorem shows_iff (A : Around d t entry x) (h : ∀ data ∈ texts x, Readable data) (host : Host)
    (shown : Option Bytes × Option Bytes) :
    FieldShows host d t entry shown ↔
      ∃ value nested, valueOf host (arrived x) = .ok ((value,shown.2),nested) ∧
        host.toUtf8 value = .ok shown.1 := by
  have hchild : (arrived A.document).child (entry+2) = .ok (arrived (entryNode A.keyElement x)) := by
    have haround := child_around (text "table") (emptyAttribute d t) A.before A.after
      (entryNode A.keyElement x)
    rw [A.position] at haround
    exact haround
  have helement := parseElement_arrived host A.keyElement x
  have hname : keyName (arrived A.keyElement) = .ok (arrivedText A.shown) := rfl
  rw [hname] at helement
  constructor
  · rintro ⟨y,r,root,el,child,nested,hy,hr,hroot,-,hel,hread,hvalue,htype⟩
    obtain rfl := Option.some.inj (A.expanded.symm.trans hy)
    cases (A.arrives h).symm.trans hr
    cases hroot
    cases hchild.symm.trans hel
    rw [helement] at hread
    obtain ⟨_,-,hread⟩ := bind_eq_ok.mp hread
    obtain ⟨p,hp,hread⟩ := bind_eq_ok.mp hread
    obtain ⟨⟨value,type⟩,nested'⟩ := p
    cases hread
    exact ⟨value,nested,htype ▸ hp,hvalue⟩
  · rintro ⟨value,nested,hread,hvalue⟩
    refine ⟨A.document,_,arrived A.document,_,⟨arrivedText A.shown,value,shown.2,0⟩,nested,A.expanded,
      A.arrives h,rfl,rfl,hchild,?_,hvalue,rfl⟩
    rw [helement, hread]
    rfl

end Around

theorem writableAll_append {xs ys : List TiXmlElement} :
    WritableAll (xs ++ ys) ↔ WritableAll xs ∧ WritableAll ys := by
  induction xs with
  | nil => simp [WritableAll]
  | cons x xs ih => simp [WritableAll, ih, and_assoc]

def Around.opened (A : Around d t entry x) (u : ℕ) : List Node :=
  [.mk (some (text "element")) none (arrivedAll [.node (text "key") [] [A.keyElement]]) [],
    .mk (some (text "data")) none [] [],newNode (text "table") (closedAttributes d u)]

/-- The reader opens the entry, behind its key its data, and in it the table. -/
theorem Around.parseLoop_opens {u : ℕ} {typeName : Bytes}
    (A : Around d t entry (tableNode typeName (closedAttributes d u) [])) (depth : ℕ) (ws : Bytes)
    (hws : blank ws = true) (rest : Bytes) (top : Node) (stack : List Node) : ∃ rest',
      parseLoop (ws ++ (printElement spaces depth
          (entryNode A.keyElement (tableNode typeName (closedAttributes d u) [])) ++ rest)) (top::stack) =
        parseLoop rest' ((A.opened u).reverse ++ top::stack) := by
  have hindent : blank spaces = true := by decide
  have helement : Label (text "element") := label_of (by decide)
  have hdata : Label (text "data") := label_of (by decide)
  have htable : Label (text "table") := label_of (by decide)
  have hnone : ∀ a ∈ ([] : List (Bytes × Bytes)), PlainAttribute a := List.forall_mem_nil _
  have hnotext : ∀ data ∈ textsAll [], Readable data := List.forall_mem_nil _
  obtain ⟨-,⟨-,-,hkey,-⟩,-⟩ := writableAll_append.mp A.writable
  have hkeytexts : ∀ data ∈ textsAll [.node (text "key") [] [A.keyElement]], Readable data :=
    List.forall_mem_cons.mpr ⟨A.key.1,List.forall_mem_cons.mpr ⟨A.key.2,hnotext⟩⟩
  obtain ⟨ws₁,rest₁,hws₁,h₁⟩ := parseLoop_down hindent helement hnone
    [.node (text "key") [] [A.keyElement]] ⟨hkey,trivial⟩ hkeytexts
    (.node (text "data") [] [tableNode typeName (closedAttributes d u) []]) [] depth ws hws rest top stack
  obtain ⟨ws₂,rest₂,hws₂,h₂⟩ := parseLoop_down hindent hdata hnone [] trivial hnotext
    (tableNode typeName (closedAttributes d u) []) [] (depth+1) ws₁ hws₁ rest₁
    (.mk (some (text "element")) none (arrivedAll [.node (text "key") [] [A.keyElement]]) []) (top::stack)
  obtain ⟨rest₃,h₃⟩ := parseLoop_opened hindent htable (plain_closed d u)
    (writeXmlNode "type" typeName) [] (depth+1+1) ws₂ hws₂ rest₂
  exact ⟨_,h₁.trans (h₂.trans (h₃ _ _))⟩

/-- What of the document of a table is open then: the table, behind whose type and entries before it the
entry is. -/
theorem Around.leads {u : ℕ} {typeName : Bytes}
    (A : Around d t entry (tableNode typeName (closedAttributes d u) [])) {r : Node}
    (hr : parseXmlText (print spaces [A.document]) = .ok r) (path : List Step)
    (hpath : Spine (.mk none none [] [] :: .mk (some (text "table")) none
      (arrivedAll (writeXmlNode "type" (text "table") :: A.before)) (emptyAttribute d t) ::
      A.opened u) path) :
    Leads path r := by
  obtain ⟨hbefore,-⟩ := writableAll_append.mp A.writable
  have htold := (List.forall_mem_append.mp (textsAll_append A.before A.after ▸ A.told)).1
  have htype : Readable (text "table") := readable_plain (by decide)
  have hlabel : Label (text "table") := label_of (by decide)
  obtain ⟨ws,rest,hws,htable⟩ := parseLoop_down (by decide : blank spaces = true) hlabel (plain_empty d t)
    (writeXmlNode "type" (text "table") :: A.before) ⟨label_of (by decide),hbefore⟩
    (List.forall_mem_cons.mpr ⟨htype,htold⟩)
    (entryNode A.keyElement (tableNode typeName (closedAttributes d u) [])) A.after 0 [] rfl []
    (.mk none none [] []) []
  obtain ⟨rest',hentry⟩ := A.parseLoop_opens 1 ws hws rest (.mk (some (text "table")) none
    (arrivedAll (writeXmlNode "type" (text "table") :: A.before)) (emptyAttribute d t))
    [.mk none none [] []]
  refine parseLoop_leads rest' _ ?_ ((htable.trans hentry).symm.trans hr)
  exact hpath

/-- The entry in such a document, and what it has of its key and of its table. -/
theorem Around.entry_leads {u : ℕ} {typeName : Bytes}
    (A : Around d t entry (tableNode typeName (closedAttributes d u) [])) {r : Node}
    (hr : parseXmlText (print spaces [A.document]) = .ok r) :
    ∃ root el, r.children[0]? = some root ∧ root.name = some (text "table") ∧
      root.children[entry+1]? = some el ∧ ∀ path, Spine (A.opened u) path → Leads path el := by
  have hall (i : {path // Spine (A.opened u) path}) :
      Leads (⟨0,text "table",emptyAttribute d t⟩ :: ⟨entry+1,text "element",[]⟩ :: i.val) r := by
    refine A.leads hr _ (.inr ⟨_,_,rfl,rfl,⟨_,rfl,rfl,rfl⟩,.inr ⟨_,_,rfl,?_,⟨_,rfl,rfl,rfl⟩,i.property⟩⟩)
    show (arrivedAll (writeXmlNode "type" (text "table") :: A.before)).length = entry+1
    rw [arrivedAll_eq, List.length_map, List.length_cons, A.position]
  have hsome : Nonempty {path // Spine (A.opened u) path} := ⟨⟨[],.inl trivial⟩⟩
  obtain ⟨root,hroot,⟨hname,-⟩,hall⟩ := leads_through _ hall
  obtain ⟨el,hel,-,hall⟩ := leads_through _ hall
  exact ⟨root,el,hroot,hname,hel,fun path hpath => hall ⟨path,hpath⟩⟩

/-- Its key is read as the text of the key. -/
theorem keyName_leads {kv : Node} {first second : Bytes} (hfirst : Leads [⟨0,first,[]⟩] kv)
    (hsecond : Leads [⟨1,second,[]⟩] kv) : ∃ name, keyName kv = .ok name := by
  obtain ⟨k₁,hk₁,-⟩ := hfirst
  obtain ⟨k₂,hk₂,-⟩ := hsecond
  refine ⟨k₁.value,?_⟩
  rw [keyName, child_get hk₁, child_get hk₂]
  rfl

def tableText (d : Debuggee) (u : ℕ) : Bytes :=
  if (d.entries u).isEmpty then text "\x7b\x7d" else text "table"

/-- An unexpanded table is read by its attributes. -/
theorem valueOf_table (host : Host) {u : ℕ} {val : Node} (hname : val.name = some (text "table"))
    (hprops : val.props = closedAttributes d u) : ∃ nested, valueOf host val =
      .ok ((some (tableText d u),some (text "table")),nested) := by
  rw [valueOf, if_pos hname, Node.attr, hprops, closedAttributes, tableText]
  cases hempty : (d.entries u).isEmpty with
  | true =>
    simp only [if_true, emptyAttribute, hempty]
    exact ⟨none,rfl⟩
  | false =>
    simp only [Bool.false_eq_true, if_false]
    exact ⟨some (referenceOf val),rfl⟩

/-- A table in the place of the value is shown by its attributes, if the reply is accepted. -/
theorem Around.shows_table {u : ℕ} {typeName : Bytes}
    (A : Around d t entry (tableNode typeName (closedAttributes d u) [])) {r : Node}
    (hr : parseXmlText (print spaces [A.document]) = .ok r) (host : Host) {shown : Option Bytes}
    (hshown : host.toUtf8 (some (tableText d u)) = .ok shown) :
    FieldShows host d t entry (shown,some (text "table")) := by
  obtain ⟨root,el,hroot,hname,hel,hall⟩ := A.entry_leads hr
  obtain ⟨dat,hdat,-,val,hval,⟨htable,hprops⟩,-⟩ := hall
    [⟨1,text "data",[]⟩,⟨0,text "table",closedAttributes d u⟩]
    (.inr ⟨_,_,rfl,rfl,⟨_,rfl,rfl,rfl⟩,.inr ⟨_,_,rfl,rfl,⟨_,rfl,rfl,rfl⟩,.inl trivial⟩⟩)
  have hkey (i : Bool) : Leads (⟨0,text "key",[]⟩ :: ⟨0,A.tag,[]⟩ ::
      [if i then ⟨1,A.second,[]⟩ else ⟨0,A.first,[]⟩]) el := by
    refine hall _ (.inl ⟨_,rfl,⟨rfl,rfl⟩,_,rfl,⟨rfl,rfl⟩,?_⟩)
    cases i with
    | false => exact ⟨_,rfl,⟨rfl,rfl⟩,trivial⟩
    | true => exact ⟨_,rfl,⟨rfl,rfl⟩,trivial⟩
  obtain ⟨ke,hke,-,hkey⟩ := leads_through _ hkey
  obtain ⟨kv,hkv,-,hkey⟩ := leads_through _ hkey
  obtain ⟨name,hkey⟩ := keyName_leads (hkey false) (hkey true)
  obtain ⟨nested,hvalue⟩ := valueOf_table host htable hprops
  refine ⟨A.document,r,root,el,⟨name,_,_,0⟩,nested,A.expanded,(received_iff spaces _ [] r).mpr hr,
    child_get hroot,hname,child_get hel,?_,hshown,rfl⟩
  rw [parseElement_children host (child_get hke) (child_get hkv) (child_get hdat) (child_get hval), hkey,
    hvalue]
  rfl

end Fields

section Kinds

variable {d : Debuggee} {files : ℤ → Option HandleBreak.File} {e : Encoding} {t entry : ℕ} {v : Value}

theorem gbk2utf8_ascii (dict : ℕ → Option Bytes) {s : Bytes} (h : s.all (· < 127) = true) :
    gbk2utf8 dict s = s := by
  induction s with
  | nil => rfl
  | cons b s ih =>
    rw [List.all_cons, Bool.and_eq_true, decide_eq_true_iff] at h
    rw [gbk2utf8.eq_def]
    simp only [if_pos h.1, ih h.2]

theorem toUtf8_ascii (e : Encoding) {s : Bytes} (h : s.all (· < 127) = true) :
    toUtf8 e (some s) = .ok (some s) := by
  obtain ⟨gbk,dict⟩ := e
  cases gbk with
  | false => rfl
  | true =>
    cases dict with
    | none => rfl
    | some dict => exact congrArg (fun s => Except.ok (some s)) (gbk2utf8_ascii dict h)

theorem result_value_iff {data type : Bytes} (hx : resultAsText d v = some (writeValue data type)) :
    ResultShows ⟨files,.ok⟩ d v (some data,some type) ↔ Arrives data ∧ Arrives type := by
  rw [← @value_answered_iff files data type tab (by decide)]
  constructor
  · rintro ⟨x,r,a,hx',hr,ha,hbody⟩
    obtain rfl := Option.some.inj (hx.symm.trans hx')
    have hr := (received_iff tab _ [] r).mp hr
    have hleads := leads_element (by decide) (label_of (by decide)) (List.forall_mem_nil _) _ _ hr
    obtain ⟨c,hc,hname,-,he⟩ := evaluated_single ⟨files,.ok⟩ (by decide) hleads
    have hvalue := he.symm.trans ha
    rw [answer_value _ hname] at hvalue
    obtain ⟨n,-,hvalue⟩ := bind_eq_ok.mp hvalue
    obtain ⟨m,-,hvalue⟩ := bind_eq_ok.mp hvalue
    obtain ⟨text,-,hvalue⟩ := bind_eq_ok.mp hvalue
    obtain rfl := Except.ok.inj hvalue
    obtain ⟨rfl,hm⟩ := Prod.mk.inj (Option.some.inj hbody)
    exact ⟨r,hr,hm ▸ ha⟩
  · rintro ⟨r,hr,ha⟩
    exact ⟨_,r,_,hx,(received_iff tab _ [] r).mpr hr,ha,rfl⟩

theorem result_value (host : Host) {data type : Bytes}
    (hx : resultAsText d v = some (writeValue data type)) (hdata : Arrives data) (htype : Arrives type) {shown : Option Bytes}
    (hshown : host.toUtf8 (some data) = .ok shown) : ResultShows host d v (shown,some type) := by
  obtain ⟨hparse,hevaluated⟩ := @value_document data type hdata htype tab (by decide)
  refine ⟨_,_,.value shown (some type),hx,(received_iff tab _ [] _).mpr hparse,?_,rfl⟩
  rw [hevaluated, hshown]
  rfl

theorem shown_value_iff {data type : Bytes} (hx : resultAsText d v = some (writeValue data type))
    (A : Around d t entry (writeValue data type)) :
    Shown d files e t entry v (.value data type) ↔ Arrives data ∧ Arrives type := by
  constructor
  · rintro ⟨⟨shown,hresult,-,htrue⟩,-⟩
    obtain rfl : shown = (some data,some type) := htrue
    exact (result_value_iff hx).mp hresult
  · rintro ⟨hdata,htype⟩
    have hread := readable_value hdata.1 htype.1
    have hvalue (host : Host) :
        valueOf host (arrived (writeValue data type)) = .ok ((some data,some type),none) := by
      change Except.ok ((arrivedText data,arrivedText type),none) = _
      rw [arrivedText, arrivedText, hdata.2, htype.2]
      rfl
    have hshows (host : Host) {shown : Option Bytes} (hshown : host.toUtf8 (some data) = .ok shown) :
        ResultShows host d v (shown,some type) ∧ FieldShows host d t entry (shown,some type) :=
      ⟨result_value host hx hdata htype hshown,(A.shows_iff hread host _).mpr ⟨_,_,hvalue host,hshown⟩⟩
    obtain ⟨converted,hconverted⟩ := toUtf8_some e data
    obtain ⟨hresult,hfield⟩ := hshows ⟨files,.ok⟩ rfl
    exact ⟨⟨_,hresult,hfield,rfl⟩,_,hshows (ExpandedTable.host files e) hconverted⟩

theorem result_function_iff (host : Host) {script line : ℤ}
    (hx : resultAsText d v = some (writeFunction script line)) (shown : Option Bytes × Option Bytes) :
    ResultShows host d v shown ↔ ∃ result,
      functionText host (parsed (writeFunction script line)) = .ok result ∧
        shown = (some result,some (text "function")) := by
  have hparse := (received_iff tab _ [] _).mpr (@function_document tab (by decide) script line)
  constructor
  · rintro ⟨x,r,a,hx',hr,ha,hbody⟩
    obtain rfl := Option.some.inj (hx.symm.trans hx')
    cases hparse.symm.trans hr
    rw [evaluated_function] at ha
    obtain ⟨result,hresult,ha⟩ := bind_eq_ok.mp ha
    cases ha
    exact ⟨result,hresult,(Option.some.inj hbody).symm⟩
  · rintro ⟨result,hresult,rfl⟩
    refine ⟨_,_,.function result,hx,hparse,?_,rfl⟩
    rw [evaluated_function, hresult]
    rfl

theorem field_function_iff (host : Host) {script line : ℤ}
    (A : Around d t entry (writeFunction script line)) (shown : Option Bytes × Option Bytes) :
    FieldShows host d t entry shown ↔ ∃ result,
      functionText host (parsed (writeFunction script line)) = .ok result ∧
        host.toUtf8 (some result) = .ok shown.1 ∧ shown.2 = some (text "function") := by
  have hread := readable_function script line
  have hvalue : valueOf host (arrived (writeFunction script line)) = (do
      let shown ← functionText host (parsed (writeFunction script line))
      return ((some shown,some (text "function")),none)) := by
    rw [function_arrived]
    rfl
  rw [A.shows_iff hread host shown, hvalue]
  constructor
  · rintro ⟨value,nested,hvalue,hshown⟩
    obtain ⟨result,hresult,hvalue⟩ := bind_eq_ok.mp hvalue
    obtain ⟨hvalue,-⟩ := Prod.mk.inj (Except.ok.inj hvalue)
    obtain ⟨rfl,htype⟩ := Prod.mk.inj hvalue
    exact ⟨result,hresult,hshown,htype.symm⟩
  · rintro ⟨result,hresult,hshown,htype⟩
    refine ⟨some result,none,?_,hshown⟩
    rw [hresult, htype]
    rfl

/-- The text of a function is not the bare word if its script is found. -/
theorem located_ne (file : HandleBreak.File) (line : ℤ) : text "function" ≠ located file line := by
  intro h
  have hlength := congrArg List.length h
  simp only [located, List.length_append] at hlength
  have hword : (text "function ").length = (text "function").length + 1 := rfl
  omega

theorem functionText_unregistered (host : Host) {script : ℤ} (line : ℤ) (h : script ≤ 0) :
    functionText host (parsed (writeFunction script line)) = .ok (text "function") := by
  rw [functionText_written, if_neg (not_lt.mpr h)]

theorem functionText_registered (host : Host) {script : ℤ} (line : ℤ) (h : 0 < script)
    (result : Bytes) : functionText host (parsed (writeFunction script line)) = .ok result ↔
      ∃ file, host.files script = some file ∧ result = located file line := by
  rw [functionText_written, if_pos h]
  cases host.files script with
  | none =>
    constructor
    · intro h
      cases h
    · rintro ⟨_,h,-⟩
      cases h
  | some file =>
    constructor
    · intro h
      exact ⟨file,rfl,(Except.ok.inj h).symm⟩
    · rintro ⟨_,hfile,rfl⟩
      obtain rfl := Option.some.inj hfile
      rfl

theorem suits_of_shown_function {script line : ℤ}
    (hx : resultAsText d v = some (writeFunction script line))
    (A : Around d t entry (writeFunction script line))
    (h : Shown d files e t entry v (.function script line)) :
    Suits d files e t (.function script line) := by
  obtain ⟨⟨shown,hresult,-,htrue⟩,same,hresult',hfield'⟩ := h
  obtain ⟨result,htext,rfl⟩ := (result_function_iff _ hx _).mp hresult
  obtain ⟨-,htrue⟩ : _ ∧ (0 ≤ script → ∀ file, files script = some file →
    some result = some (located file line)) := htrue
  rcases lt_trichotomy script 0 with hneg | rfl | hpos
  · exact .inl (.inl hneg)
  · -- the word alone, which is not the text of a script that is found
    refine .inl (.inr ⟨rfl,?_⟩)
    rw [functionText_unregistered _ _ le_rfl] at htext
    obtain rfl := Except.ok.inj htext
    rw [Option.eq_none_iff_forall_ne_some]
    intro file hfile
    exact located_ne file line (Option.some.inj (htrue le_rfl file hfile))
  · -- the result is not converted, the entry is
    obtain ⟨result',htext',rfl⟩ := (result_function_iff _ hx _).mp hresult'
    obtain ⟨file,hfile,rfl⟩ := (functionText_registered _ _ hpos _).mp htext'
    obtain ⟨result',htext',hconverted,-⟩ := (field_function_iff _ A _).mp hfield'
    obtain ⟨file',hfile',rfl⟩ := (functionText_registered _ _ hpos _).mp htext'
    obtain rfl := Option.some.inj (hfile.symm.trans hfile')
    exact .inr ⟨hpos,file,hfile,hconverted⟩

/-- The same text on both sides, which the conversion leaves as it is. -/
theorem shown_function {script line : ℤ} (hx : resultAsText d v = some (writeFunction script line))
    (A : Around d t entry (writeFunction script line)) {result : Bytes}
    (htext : ∀ host : Host, host.files = files →
      functionText host (parsed (writeFunction script line)) = .ok result)
    (hconverted : toUtf8 e (some result) = .ok (some result))
    (htrue : 0 ≤ script → ∀ file, files script = some file → some result = some (located file line)) :
    Shown d files e t entry v (.function script line) := by
  have hboth (host : Host) (hfiles : host.files = files)
      (hhost : host.toUtf8 (some result) = .ok (some result)) :
      ResultShows host d v (some result,some (text "function")) ∧
        FieldShows host d t entry (some result,some (text "function")) :=
    ⟨(result_function_iff host hx _).mpr ⟨result,htext host hfiles,rfl⟩,
      (field_function_iff host A _).mpr ⟨result,htext host hfiles,hhost,rfl⟩⟩
  obtain ⟨hresult,hfield⟩ := hboth ⟨files,.ok⟩ rfl rfl
  exact ⟨⟨_,hresult,hfield,rfl,htrue⟩,_,hboth (ExpandedTable.host files e) rfl hconverted⟩

theorem shown_function_iff {script line : ℤ} (hx : resultAsText d v = some (writeFunction script line))
    (A : Around d t entry (writeFunction script line)) :
    Shown d files e t entry v (.function script line) ↔ Suits d files e t (.function script line) := by
  have hword : toUtf8 e (some (text "function")) = .ok (some (text "function")) :=
    toUtf8_ascii e (by decide)
  constructor
  · exact suits_of_shown_function hx A
  · rintro ((hneg | ⟨rfl,hnone⟩) | ⟨hpos,file,hfile,hconverted⟩)
    · exact shown_function hx A (fun host _ => functionText_unregistered host line hneg.le) hword
        (fun h => absurd hneg (not_lt.mpr h))
    · refine shown_function hx A (fun host _ => functionText_unregistered host line le_rfl) hword
        (fun _ file hfile => ?_)
      rw [hnone] at hfile
      cases hfile
    · refine shown_function hx A (fun host hfiles => ?_) hconverted (fun _ file' hfile' => ?_)
      · rw [functionText_registered host line hpos, hfiles]
        exact ⟨file,hfile,rfl⟩
      · rw [Option.some.inj (hfile.symm.trans hfile')]

theorem toUtf8_tableText (e : Encoding) (u : ℕ) :
    toUtf8 e (some (tableText d u)) = .ok (some (tableText d u)) := by
  rw [tableText]
  split
  · exact toUtf8_ascii e (by decide)
  · exact toUtf8_ascii e (by decide)

theorem result_table (host : Host) {u : ℕ} {typeName : Bytes}
    (hx : resultAsText d v = some (tableNode typeName (closedAttributes d u) [])) {r : Node}
    (hr : parseXmlText (print tab [tableNode typeName (closedAttributes d u) []]) = .ok r) :
    ResultShows host d v (some (tableText d u),some (text "table")) := by
  have hanswer := (table_answered host (by decide) hr).2
  refine ⟨_,r,_,hx,(received_iff tab _ [] r).mpr hr,hanswer,?_⟩
  rw [tableAnswer, tableText]
  split
  · rfl
  · rfl

theorem shown_table_iff {u : ℕ} {typeName : Bytes}
    (hx : resultAsText d v = some (tableNode typeName (closedAttributes d u) []))
    (A : Around d t entry (tableNode typeName (closedAttributes d u) [])) :
    Shown d files e t entry v (.table u typeName) ↔ Suits d files e t (.table u typeName) := by
  constructor
  · rintro ⟨⟨shown,⟨x,r,a,hx',hr,-⟩,⟨y,r',root,el,child,nested,hy,hr',-⟩,-⟩,-⟩
    obtain rfl := Option.some.inj (hx.symm.trans hx')
    exact ⟨⟨r,(received_iff tab _ [] r).mp hr⟩,y,r',hy,(received_iff spaces _ [] r').mp hr'⟩
  · rintro ⟨⟨r,hr⟩,y,r',hy,hr'⟩
    obtain rfl := Option.some.inj (A.expanded.symm.trans hy)
    exact ⟨⟨_,result_table _ hx hr,A.shows_table hr' _ rfl,rfl⟩,_,result_table _ hx hr,
      A.shows_table hr' _ (toUtf8_tableText e u)⟩

theorem shown_iff {before after : List (Value × Value)} {k : Value}
    (hentries : d.entries t = before ++ (k,v) :: after) (hothers : Told d (before ++ after))
    (hkey : ToldKey d k) {w : Written} (hx : resultAsText d v = some (w.element d)) :
    Shown d files e t before.length v w ↔ Suits d files e t w := by
  obtain ⟨A⟩ := around hentries hothers hkey hx
  cases w with
  | value data type => exact shown_value_iff hx A
  | function script line => exact shown_function_iff hx A
  | table u typeName => exact shown_table_iff hx A
  | error message =>
    constructor
    · rintro ⟨⟨_,-,-,h⟩,-⟩
      exact h
    · exact False.elim

/-- Both decoders describe a value alike and as it is exactly if what is written for it suits both. -/
theorem alike_iff (files : ℤ → Option HandleBreak.File) (e : Encoding) (d : Debuggee) (t : ℕ)
    (before after : List (Value × Value)) (k v : Value) (hentries : d.entries t = before ++ (k,v) :: after)
    (hothers : Told d (before ++ after)) (hkey : ToldKey d k) :
    Alike d files e t before.length v ↔ ∃ w, resultAsText d v = some (w.element d) ∧ Suits d files e t w :=
  exists_congr fun _ => and_congr_right fun hx => shown_iff hentries hothers hkey hx

def registered (z : ℤ) : ℤ → Option HandleBreak.File :=
  fun script => if script = z then some ⟨some (text "main.lua"),text "main.lua",[]⟩ else none

theorem alike_iff_registered :
    Alike (holding (.function 3 12)) (registered 3) ⟨false,none⟩ 0 0 (.function 3 12) :=
  (alike_iff (registered 3) ⟨false,none⟩ (holding (.function 3 12)) 0 [] [] (.string (text "k"))
    (.function 3 12) rfl (List.forall_mem_nil _) (told_holding _)).mpr
    ⟨.function 3 11,rfl,.inr ⟨by decide,_,rfl,rfl⟩⟩

/-- A function is written in one way only. -/
theorem element_function {w : Written} {script line : ℤ} (h : writeFunction script line = w.element d) :
    w = .function script line := by
  have hnumber {z z' : ℤ} (h : sprintfD z = sprintfD z') : z' = z :=
    Option.some.inj (by rw [← tonumber_sprintfD z, ← tonumber_sprintfD z', h])
  cases w with
  | error message => cases h
  | value data type => exact absurd (TiXmlElement.node.inj h).1 (by decide)
  | table u typeName => exact absurd (TiXmlElement.node.inj h).1 (by decide)
  | function script' line' =>
    obtain ⟨-,-,hchildren⟩ := TiXmlElement.node.inj h
    obtain ⟨hscript,hchildren⟩ := List.cons.inj hchildren
    obtain ⟨hline,-⟩ := List.cons.inj hchildren
    rw [hnumber (TiXmlElement.leaf.inj hscript).2, hnumber (TiXmlElement.leaf.inj hline).2]

/-- The first script of all is registered with index zero. -/
theorem first_script_not_alike :
    registered 0 0 ≠ none ∧
      ¬ Alike (holding (.function 0 1)) (registered 0) ⟨false,none⟩ 0 0 (.function 0 1) := by
  have hfile : registered 0 0 ≠ none := Option.some_ne_none _
  refine ⟨hfile,?_⟩
  rintro ⟨w,hx,h⟩
  obtain rfl := element_function (Option.some.inj hx)
  have hentries : (holding (.function 0 1)).entries 0 = [] ++ (.string (text "k"),.function 0 1) :: [] :=
    rfl
  rcases (shown_iff hentries (List.forall_mem_nil _) (told_holding _) hx).mp h with (hneg | hnone) | hpos
  · exact absurd hneg (lt_irrefl 0)
  · exact hfile hnone.2
  · exact absurd hpos.1 (lt_irrefl 0)

end Kinds

end Vecoda.AlikeDecoders

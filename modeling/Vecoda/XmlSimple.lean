import Vecoda.LuaText

/-!
# The bundled XML parser

`ParseXmlText` of xmlSimple.lua and the node accessors its callers use. Every
accessor that indexes a missing child raises a Lua error, as does a closing
tag that does not match, an unclosed element and a character reference above
one byte.
-/

set_option autoImplicit false

namespace Vecoda.XmlSimple
open MessagePipe LuaText

/-- `name` is absent in the root alone. The attributes keep their order. -/
inductive Node where
  | mk (name : Option Bytes) (value : Option Bytes) (children : List Node)
      (props : List (Bytes × Bytes))

namespace Node

def name : Node → Option Bytes
  | mk n _ _ _ => n

def value : Node → Option Bytes
  | mk _ v _ _ => v

def children : Node → List Node
  | mk _ _ cs _ => cs

def props : Node → List (Bytes × Bytes)
  | mk _ _ _ ps => ps

def setValue : Node → Bytes → Node
  | mk n _ cs ps, v => mk n (some v) cs ps

def addChild : Node → Node → Node
  | mk n v cs ps, c => mk n v (cs ++ [c]) ps

def numChildren (n : Node) : ℕ := n.children.length

/-- `node.___children[i]`, on which the callers then call a method. -/
def child (n : Node) (i : ℕ) : Lua Node :=
  match n.children[i-1]? with
  | some c => .ok c
  | none => .error .raised

/-- `node['@' .. name]`: absent, one text, or a table once the name repeats. -/
def attr (n : Node) (name : Bytes) : List Bytes :=
  (n.props.filter (fun p => p.1 = name)).map (·.2)

end Node

def newNode (label : Bytes) (props : List (Bytes × Bytes)) : Node := .mk (some label) none [] props

def charRefs (opening : Bytes) (digit : UInt8 → Option ℕ) (base : ℕ) (s : Bytes) : Lua Bytes :=
  match s with
  | [] => .ok []
  | b::bs =>
    let body := (b::bs).drop opening.length
    let ds := body.takeWhile (fun c => (digit c).isSome)
    let after := body.drop ds.length
    if opening ≠ [] ∧ opening.isPrefixOf (b::bs) ∧ ds ≠ [] ∧ after.head? = some (byte ';') then do
      let c ← char (ofDigits digit base ds)
      return c :: (← charRefs opening digit base after.tail)
    else do
      return b :: (← charRefs opening digit base bs)
termination_by s.length
decreasing_by
  · rw [List.length_tail, List.length_drop, List.length_drop, List.length_cons]
    omega
  · rw [List.length_cons]
    omega

def fromXmlString (value : Bytes) : Lua Bytes := do
  let value ← charRefs (text "&#x") hexDigit 16 value
  let value ← charRefs (text "&#") decDigit 10 value
  let value := replaceAll (text "&quot;") (text "\"") value
  let value := replaceAll (text "&apos;") (text "'") value
  let value := replaceAll (text "&gt;") (text ">") value
  let value := replaceAll (text "&lt;") (text "<") value
  return replaceAll (text "&amp;") (text "&") value

def argMatches (s : Bytes) : List (Bytes × Bytes) :=
  match s with
  | [] => []
  | b::bs =>
    let w := (b::bs).takeWhile isAlnum
    match (b::bs).drop w.length with
    | eq::quote::rest =>
      if w ≠ [] ∧ eq = byte '=' ∧ (quote = byte '"' ∨ quote = byte '\'') ∧ quote ∈ rest then
        let a := rest.takeWhile (· ≠ quote)
        (w,a) :: argMatches (bs.drop (w.length + 2 + a.length))
      else argMatches bs
    | _ => argMatches bs
termination_by s.length
decreasing_by
  all_goals simp only [List.length_drop, List.length_cons]
  all_goals omega

def parseArgs (xarg : Bytes) : Lua (List (Bytes × Bytes)) :=
  (argMatches xarg).mapM (fun p => do return (p.1,← fromXmlString p.2))

structure Tag where
  closing : Bool
  label : Bytes
  xarg : Bytes
  empty : Bool
  rest : Bytes

def isLabel (b : UInt8) : Bool := isAlnum b || b = byte '_' || b = byte ':'

/-- `<(%/?)([%w_:]+)(.-)(%/?)>` matched at the first byte: the argument part
ends at the first `>`, less a slash that stands directly before it. -/
def matchTag : Bytes → Option Tag
  | [] => none
  | b::bs =>
    let closing : Bool := bs.head? == some (byte '/')
    let bs := bs.drop (if closing then 1 else 0)
    let label := bs.takeWhile isLabel
    let after := bs.drop label.length
    let body := after.takeWhile (· ≠ byte '>')
    if b = byte '<' ∧ label ≠ [] ∧ body.length < after.length then
      let empty : Bool := body.getLast? == some (byte '/')
      some ⟨closing,label,if empty then body.dropLast else body,empty,after.drop (body.length+1)⟩
    else none

def findTag : Bytes → Option (Bytes × Tag)
  | [] => none
  | b::bs =>
    match matchTag (b::bs) with
    | some t => some ([],t)
    | none => (findTag bs).map (fun p => (b::p.1,p.2))

theorem matchTag_rest (s : Bytes) (t : Tag) (h : matchTag s = some t) :
    t.rest.length < s.length := by
  cases s with
  | nil => cases h
  | cons b bs =>
    rw [matchTag, Option.ite_none_right_eq_some] at h
    obtain ⟨_,he⟩ := h
    rw [← Option.some.inj he]
    simp only [List.length_drop, List.length_cons]
    omega

theorem findTag_rest (s : Bytes) (p : Bytes × Tag) (h : findTag s = some p) :
    p.2.rest.length < s.length := by
  induction s generalizing p with
  | nil => cases h
  | cons b bs ih =>
    rw [findTag] at h
    split at h
    · rename_i t ht
      cases h
      exact matchTag_rest _ t ht
    · obtain ⟨q,hq,rfl⟩ := Option.map_eq_some_iff.mp h
      have := ih q hq
      simp only [List.length_cons]
      omega

def blank (s : Bytes) : Bool := s.all isSpace

def addText (text : Bytes) : List Node → Lua (List Node)
  | [] => .error .raised
  | top::stack =>
    if blank text then .ok (top::stack)
    else do
      let v ← fromXmlString text
      return top.setValue ((top.value.getD []) ++ v) :: stack

def addTag (t : Tag) : List Node → Lua (List Node)
  | [] => .error .raised
  | top::stack =>
    if t.empty then do
      let props ← parseArgs t.xarg
      return top.addChild (newNode t.label props) :: stack
    else if !t.closing then do
      let props ← parseArgs t.xarg
      return newNode t.label props :: top :: stack
    else
      match stack with
      | [] => .error .raised
      | parent::stack =>
        if top.name = some t.label then .ok (parent.addChild top :: stack) else .error .raised

/-- The scanning loop; `stack` holds the open elements, innermost first. -/
def parseLoop (s : Bytes) (stack : List Node) : Lua Node :=
  match _h : findTag s with
  | none =>
    match stack with
    | [top] => .ok top
    | _ => .error .raised
  | some p => do
    let stack ← addText p.1 stack
    let stack ← addTag p.2 stack
    parseLoop p.2.rest stack
termination_by s.length
decreasing_by exact findTag_rest s p _h

def parseXmlText (xmlText : Bytes) : Lua Node := parseLoop xmlText [.mk none none [] []]

end Vecoda.XmlSimple

import Vecoda.TableDocument

/-!
# The bundled XML printer

EncodeString and TiXmlPrinter of TinyXML over the elements that the backend
builds: an element has one text, or attributes and elements. An indent of four
spaces is the printer's own; Evaluate sets a tab.
-/

set_option autoImplicit false

namespace Vecoda.XmlPrinter
open MessagePipe LuaText TableDocument

def upperDigit (n : ℕ) : UInt8 := UInt8.ofNat (if n < 10 then (byte '0').toNat + n else (byte 'A').toNat + (n-10))

def entity (c : UInt8) : Option Bytes :=
  if c = byte '&' then some (text "amp")
  else if c = byte '<' then some (text "lt")
  else if c = byte '>' then some (text "gt")
  else if c = byte '"' then some (text "quot")
  else if c = byte '\'' then some (text "apos")
  else if c < 32 then some (text "#x" ++ [upperDigit (c.toNat / 16),upperDigit (c.toNat % 16)])
  else none

/-- A hexadecimal reference passes through unchanged, up to its `;`. Where there
is none, so does all that follows but the last byte. -/
def passed (str : Bytes) : Bytes :=
  if (text "&#x").isPrefixOf str then str.dropLast.takeWhile (· ≠ byte ';') else []

def encodeByte (c : UInt8) : Bytes :=
  match entity c with
  | some name => byte '&' :: name ++ [byte ';']
  | none => [c]

/-- `unchanged` is the number of bytes that the inner loop has still to append. -/
def encodeFrom (unchanged : ℕ) : Bytes → Bytes
  | [] => []
  | c::cs =>
    let unchanged := if unchanged = 0 then (passed (c::cs)).length else unchanged
    if unchanged = 0 then encodeByte c ++ encodeFrom 0 cs else c :: encodeFrom (unchanged-1) cs

def encodeString (str : Bytes) : Bytes := encodeFrom 0 str

def printAttribute (a : Bytes × Bytes) : Bytes :=
  let quote := if byte '"' ∈ a.2 then byte '\'' else byte '"'
  encodeString a.1 ++ byte '=' :: quote :: encodeString a.2 ++ [quote]

def printAttributes (attributes : List (Bytes × Bytes)) : Bytes :=
  attributes.flatMap (fun a => byte ' ' :: printAttribute a)

def doIndent (indent : Bytes) (depth : ℕ) : Bytes := (List.replicate depth indent).flatten

def doLineBreak : Bytes := text "\n"

def closing (tag : Bytes) : Bytes := text "</" ++ tag ++ text ">"

mutual
def printElement (indent : Bytes) (depth : ℕ) : TiXmlElement → Bytes
  | .leaf tag data =>
    doIndent indent depth ++ byte '<' :: tag ++ text ">" ++ encodeString data ++ closing tag ++ doLineBreak
  | .node tag attributes children =>
    doIndent indent depth ++ byte '<' :: tag ++ printAttributes attributes ++
      if children.isEmpty then text " />" ++ doLineBreak
      else text ">" ++ doLineBreak ++ printAll indent (depth+1) children ++
        doIndent indent depth ++ closing tag ++ doLineBreak

def printAll (indent : Bytes) (depth : ℕ) : List TiXmlElement → Bytes
  | [] => []
  | child::children => printElement indent depth child ++ printAll indent depth children
end

def print (indent : Bytes) (document : List TiXmlElement) : Bytes := printAll indent 0 document

example : print (text "\t") [.node (text "a") [(text "b",text "1")] [.leaf (text "c") (text "<&#x<;")]] =
    text "<a b=\"1\">\n\t<c>&lt;&#x<;</c>\n</a>\n" := by decide +kernel

end Vecoda.XmlPrinter

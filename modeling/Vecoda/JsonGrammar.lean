import Mathlib.Data.List.Basic

/-!
# The grammar of JSON texts

A text and the value it denotes. What a string body and a numeral mean is a
parameter, and so is the type of numbers. A container is filled from the left,
and a later entry of an object replaces an earlier one of the same name.
-/

set_option autoImplicit false

namespace Vecoda.JsonGrammar

abbrev Text := List UInt8

def code (c : Char) : UInt8 := UInt8.ofNat c.toNat

def ascii (s : String) : Text := s.toList.map code

def blank (b : UInt8) : Bool := b = code ' ' || b = code '\t' || b = code '\r' || b = code '\n'

def Blank (w : Text) : Prop := ∀ b ∈ w, blank b = true

/-- What may follow a value: its container goes on or ends, or a blank. -/
def separator (b : UInt8) : Bool := blank b || b = code ']' || b = code '}' || b = code ','

def digit (b : UInt8) : Bool := code '0' ≤ b && b ≤ code '9'

def hexadecimal (b : UInt8) : Bool :=
  digit b || (code 'a' ≤ b && b ≤ code 'f') || (code 'A' ≤ b && b ≤ code 'F')

inductive Value (N : Type) where
  | null
  | boolean (b : Bool)
  | number (n : N)
  | string (s : Text)
  | array (items : List (Value N))
  | object (entries : List (Text × Value N))

section Containers

variable {N : Type}

def assign {K V : Type} [DecidableEq K] (key : K) (v : V) : List (K × V) → List (K × V)
  | [] => [(key,v)]
  | (k,u)::entries => if k = key then (key,v)::entries else (k,u)::assign key v entries

theorem assign_fresh {K V : Type} [DecidableEq K] (key : K) (v : V) (entries : List (K × V))
    (h : key ∉ entries.map Prod.fst) : assign key v entries = entries ++ [(key,v)] := by
  induction entries with
  | nil => rfl
  | cons e entries ih =>
    have he : e.1 ≠ key := fun hk => h (by simp [hk])
    rw [assign, if_neg he, ih (fun hk => h (by simp [hk])), List.cons_append]

inductive Container (N : Type) where
  | array (items : List (Value N))
  | object (entries : List (Text × Value N))

inductive Kind where
  | array
  | object
  deriving DecidableEq

inductive Slot (N : Type) where
  | item (items : List (Value N))
  | field (entries : List (Text × Value N)) (key : Text)

def Kind.opening : Kind → UInt8
  | array => code '['
  | object => code '\x7b'

def Kind.closing : Kind → UInt8
  | array => code ']'
  | object => code '\x7d'

def Kind.empty : Kind → Container N
  | array => .array []
  | object => .object []

def Container.kind : Container N → Kind
  | array _ => .array
  | object _ => .object

def Container.value : Container N → Value N
  | array items => .array items
  | object entries => .object entries

def Slot.kind : Slot N → Kind
  | item _ => .array
  | field _ _ => .object

def Slot.fill : Slot N → Value N → Container N
  | item items, v => .array (items ++ [v])
  | field entries key, v => .object (assign key v entries)

@[simp] theorem kind_empty (kind : Kind) : (kind.empty : Container N).kind = kind := by
  cases kind <;> rfl

@[simp] theorem kind_fill (slot : Slot N) (v : Value N) : (slot.fill v).kind = slot.kind := by
  cases slot <;> rfl

end Containers

section Numerals

inductive Whole : Text → Prop
  | zero : Whole [code '0']
  | other (d : UInt8) (ds : Text) (hd : digit d = true) (h0 : d ≠ code '0')
      (hds : ∀ b ∈ ds, digit b = true) : Whole (d::ds)

inductive Fraction : Text → Prop
  | none : Fraction []
  | point (ds : Text) (hne : ds ≠ []) (hds : ∀ b ∈ ds, digit b = true) : Fraction (code '.'::ds)

inductive Sign : Text → Prop
  | none : Sign []
  | plus : Sign [code '+']
  | minus : Sign [code '-']

inductive Exponent : Text → Prop
  | lower (sign ds : Text) (hsign : Sign sign) (hne : ds ≠ []) (hds : ∀ b ∈ ds, digit b = true) :
      Exponent (code 'e'::sign ++ ds)
  | upper (sign ds : Text) (hsign : Sign sign) (hne : ds ≠ []) (hds : ∀ b ∈ ds, digit b = true) :
      Exponent (code 'E'::sign ++ ds)

inductive Numeral : Bool → Text → Prop
  | plain (whole fraction : Text) (hw : Whole whole) (hf : Fraction fraction) :
      Numeral false (whole ++ fraction)
  | exponential (whole fraction exponent : Text) (hw : Whole whole) (hf : Fraction fraction)
      (he : Exponent exponent) : Numeral true (whole ++ fraction ++ exponent)

end Numerals

section Strings

def escapable (b : UInt8) : Bool :=
  b = code '"' || b = code '\\' || b = code '/' || b = code 'b' || b = code 'f' || b = code 'n' ||
    b = code 'r' || b = code 't'

def ordinary (b : UInt8) : Bool := 32 ≤ b && b ≠ code '"' && b ≠ code '\\'

inductive Body : Text → Prop
  | nil : Body []
  | plain (b : UInt8) (bs : Text) (hb : ordinary b = true) (h : Body bs) : Body (b::bs)
  | escape (b : UInt8) (bs : Text) (hb : escapable b = true) (h : Body bs) :
      Body (code '\\'::b::bs)
  | unicode (xs bs : Text) (hl : xs.length = 4) (hx : ∀ x ∈ xs, hexadecimal x = true) (h : Body bs) :
      Body (code '\\'::code 'u'::xs ++ bs)

def quoted (body : Text) : Text := code '"'::body ++ [code '"']

theorem Body.append {a b : Text} (ha : Body a) (hb : Body b) : Body (a ++ b) := by
  induction ha with
  | nil => exact hb
  | plain c cs hc _ ih => exact .plain c _ hc ih
  | escape c cs hc _ ih => exact .escape c _ hc ih
  | unicode xs cs hl hx _ ih =>
    have := Body.unicode xs (cs ++ b) hl hx ih
    simpa only [List.cons_append, List.append_assoc] using this

end Strings

section Values

variable {N : Type}

structure Meaning (N : Type) where
  string : Text → Text
  numeral : Text → N
  neg : N → N

variable (m : Meaning N)

inductive Label : Container N → Text → Slot N → Prop
  | item (items : List (Value N)) : Label (.array items) [] (.item items)
  | field (entries : List (Text × Value N)) (w body w' : Text) (hw : Blank w) (hb : Body body)
      (hw' : Blank w') :
      Label (.object entries) (w ++ quoted body ++ w' ++ [code ':']) (.field entries (m.string body))

mutual
/-- A text and its value. `bare` is set where the text ends in an exponent. -/
inductive Denotes : Bool → Text → Value N → Prop
  | null : Denotes false (ascii "null") .null
  | holds : Denotes false (ascii "true") (.boolean true)
  | fails : Denotes false (ascii "false") (.boolean false)
  | number (bare : Bool) (t : Text) (h : Numeral bare t) : Denotes bare t (.number (m.numeral t))
  | negative (bare : Bool) (t : Text) (h : Numeral bare t) :
      Denotes bare (code '-'::t) (.number (m.neg (m.numeral t)))
  | string (body : Text) (h : Body body) : Denotes false (quoted body) (.string (m.string body))
  | empty (kind : Kind) (w : Text) (hw : Blank w) :
      Denotes false (kind.opening::w ++ [kind.closing]) kind.empty.value
  | filled (kind : Kind) (t : Text) (c : Container N) (h : Contents kind.empty t c) :
      Denotes false (kind.opening::t ++ [kind.closing]) c.value

/-- The text fills the first container up to the second. -/
inductive Contents : Container N → Text → Container N → Prop
  | last (c : Container N) (l w t w' : Text) (slot : Slot N) (bare : Bool) (v : Value N)
      (hl : Label m c l slot) (hw : Blank w) (ht : Denotes bare t v) (hw' : Blank w') :
      Contents c (l ++ w ++ t ++ w') (slot.fill v)
  | more (c d : Container N) (l w t w' ts : Text) (slot : Slot N) (bare : Bool) (v : Value N)
      (hl : Label m c l slot) (hw : Blank w) (ht : Denotes bare t v) (hw' : Blank w')
      (hts : Contents (slot.fill v) ts d) : Contents c (l ++ w ++ t ++ w' ++ code ','::ts) d
end

/-- A whole text: blanks may stand around the value, and one has to stand behind a bare
exponent where `guarded` is set. -/
def Document (guarded : Bool) (s : Text) (v : Value N) : Prop :=
  ∃ w bare t w', s = w ++ t ++ w' ∧ Blank w ∧ Denotes m bare t v ∧ Blank w' ∧
    (guarded = true → bare = true → w' ≠ [])

end Values

end Vecoda.JsonGrammar

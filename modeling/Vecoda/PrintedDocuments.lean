import Vecoda.PrintedTags

/-!
# Printing and parsing a document

What the reader makes of a printed document. It gives back the elements and
their texts exactly if every text is legible: nothing in it that EncodeString
passes through is read as a reference or as the beginning of a tag. Whatever
else the reader gives has less text than the document.
-/

set_option autoImplicit false

namespace Vecoda.PrintedDocuments
open MessagePipe LuaText XmlSimple XmlPrinter TextReferences PrintedTags TableDocument
open TextReferences.Letter

section Weight

mutual
def weight : Node → ℕ
  | .mk _ value children _ => (value.getD []).length + weightAll children

def weightAll : List Node → ℕ
  | [] => 0
  | n::ns => weight n + weightAll ns
end

@[simp] theorem weightAll_nil : weightAll [] = 0 := rfl

@[simp] theorem weightAll_cons (n : Node) (ns : List Node) : weightAll (n::ns) = weight n + weightAll ns := rfl

theorem weightAll_append (ns ms : List Node) : weightAll (ns ++ ms) = weightAll ns + weightAll ms := by
  induction ns with
  | nil => simp
  | cons n ns ih => simp [ih, Nat.add_assoc]

theorem weight_setValue (n : Node) (v : Bytes) :
    weight (n.setValue ((n.value.getD []) ++ v)) = weight n + v.length := by
  obtain ⟨name,value,children,props⟩ := n
  simp only [Node.setValue, Node.value, weight, Option.getD_some, List.length_append]
  omega

theorem weight_addChild (n c : Node) : weight (n.addChild c) = weight n + weight c := by
  obtain ⟨name,value,children,props⟩ := n
  simp only [Node.addChild, weight, weightAll_append, weightAll_cons, weightAll_nil]
  omega

theorem weight_newNode (label : Bytes) (props : List (Bytes × Bytes)) : weight (newNode label props) = 0 := rfl

theorem addTag_empty {t : Tag} (h : t.empty = true) (top : Node) (stack : List Node) :
    addTag t (top::stack) = (do
      let props ← parseArgs t.xarg
      return top.addChild (newNode t.label props) :: stack) := by
  simp only [addTag, h, if_true]

theorem addTag_opening {t : Tag} (h : t.empty = false) (hopening : t.closing = false) (top : Node)
    (stack : List Node) : addTag t (top::stack) = (do
      let props ← parseArgs t.xarg
      return newNode t.label props :: top :: stack) := by
  simp only [addTag, h, hopening, Bool.false_eq_true, if_false, Bool.not_false, if_true]

theorem addTag_closing {t : Tag} (h : t.empty = false) (hclosing : t.closing = true) (top parent : Node)
    (stack : List Node) : addTag t (top::parent::stack) =
      if top.name = some t.label then .ok (parent.addChild top :: stack) else .error .raised := by
  simp only [addTag, h, hclosing, Bool.false_eq_true, if_false, Bool.not_true]

theorem addTag_closes {t : Tag} (h : t.empty = false) (hclosing : t.closing = true) {top : Node}
    (hname : top.name = some t.label) (parent : Node) (stack : List Node) :
    addTag t (top::parent::stack) = .ok (parent.addChild top :: stack) := by
  rw [addTag_closing h hclosing, if_pos hname]

/-- What a tag does to the open elements. -/
theorem addTag_cases {t : Tag} {stack stack' : List Node} (h : addTag t stack = .ok stack') :
    (∃ top rest props, stack = top::rest ∧ stack' = top.addChild (newNode t.label props) :: rest) ∨
    (∃ props, stack ≠ [] ∧ stack' = newNode t.label props :: stack) ∨
    (∃ top parent rest, stack = top::parent::rest ∧ stack' = parent.addChild top :: rest) := by
  cases stack with
  | nil => cases h
  | cons top stack =>
    cases hempty : t.empty with
    | true =>
      rw [addTag_empty hempty] at h
      obtain ⟨props,-,h⟩ := bind_eq_ok.mp h
      cases h
      exact .inl ⟨top,stack,props,rfl,rfl⟩
    | false =>
      cases hclosing : t.closing with
      | false =>
        rw [addTag_opening hempty hclosing] at h
        obtain ⟨props,-,h⟩ := bind_eq_ok.mp h
        cases h
        exact .inr (.inl ⟨props,List.cons_ne_nil _ _,rfl⟩)
      | true =>
        cases stack with
        | nil => simp [addTag, hempty, hclosing] at h
        | cons parent stack =>
          rw [addTag_closing hempty hclosing] at h
          split at h
          · cases h
            exact .inr (.inr ⟨top,parent,stack,rfl,rfl⟩)
          · cases h

/-- A tag moves texts, and adds none. -/
theorem addTag_weight {t : Tag} {stack stack' : List Node} (h : addTag t stack = .ok stack') :
    weightAll stack' = weightAll stack := by
  rcases addTag_cases h with ⟨top,rest,props,rfl,rfl⟩ | ⟨props,-,rfl⟩ | ⟨top,parent,rest,rfl,rfl⟩
  · simp [weight_addChild, weight_newNode]
  · simp [weight_newNode]
  · simp only [weightAll_cons, weight_addChild]
    omega

theorem ampersand_live {dec : Decoder} {X : List Letter} (h : live dec X = true) : byte '&' ∈ render X := by
  induction X with
  | nil => cases h
  | cons a X ih =>
    rw [render_cons, List.mem_append]
    rcases Bool.or_eq_true_iff.mp h with h | h
    · left
      obtain ⟨p,hp⟩ := Option.isSome_iff_exists.mp h
      rw [replaced, Option.ite_none_right_eq_some] at hp
      cases a with
      | raw b => exact List.mem_singleton.mpr (Option.some.inj hp.1).symm
      | coded c => exact List.mem_cons_self
    · exact .inr (ih h)

theorem blank_not_live {X : List Letter} (h : blank (render X) = true) : ¬ Live X := by
  rintro ⟨dec,-,hlive⟩
  exact absurd (List.all_eq_true.mp h _ (ampersand_live hlive)) (by decide)

theorem opened_forged {X : List Letter} (h : forged X = true) : byte '<' ∈ render X := by
  induction X with
  | nil => cases h
  | cons a X ih =>
    rw [render_cons, List.mem_append]
    rcases Bool.or_eq_true_iff.mp h with h | h
    · cases a with
      | raw b =>
        have hb : b = byte '<' := by
          have := (Bool.and_eq_true_iff.mp h).1
          simpa [view] using this
        exact .inl (List.mem_singleton.mpr hb.symm)
      | coded c => cases h
    · exact .inr (ih h)

theorem blank_not_forged {X : List Letter} (h : blank (render X) = true) : forged X = false := by
  rw [Bool.eq_false_iff]
  intro hforged
  exact absurd (List.all_eq_true.mp h _ (opened_forged hforged)) (by decide)

def held (X : List Letter) : ℕ := if blank (render X) = true then 0 else X.length

/-- No part of the text is read as a reference, and none as a tag. -/
structure Legible (X : List Letter) : Prop where
  dead : ¬ Live X
  text : forged X = false

theorem addText_weight {X : List Letter} {stack stack' : List Node} (h : addText (render X) stack = .ok stack') :
    weightAll stack' ≤ weightAll stack + held X ∧ (Live X → weightAll stack' < weightAll stack + held X) := by
  cases stack with
  | nil => cases h
  | cons top stack =>
    rw [addText] at h
    split at h
    · rename_i hblank
      cases h
      exact ⟨Nat.le_add_right _ _,fun hlive => absurd hlive (blank_not_live hblank)⟩
    · rename_i hblank
      obtain ⟨v,hv,h⟩ := bind_eq_ok.mp h
      cases h
      rw [held, if_neg hblank, weightAll_cons, weightAll_cons, weight_setValue]
      rcases fromXmlString_letters X hv with ⟨-,hlt⟩ | ⟨hdead,rfl⟩
      · exact ⟨by omega,fun _ => by omega⟩
      · rw [List.length_map]
        exact ⟨by omega,fun hlive => absurd hlive hdead⟩

theorem parseLoop_found {s : Bytes} {p : Bytes × Tag} (h : findTag s = some p) (stack : List Node) :
    parseLoop s stack = (do
      let stack ← addText p.1 stack
      let stack ← addTag p.2 stack
      parseLoop p.2.rest stack) := by
  rw [parseLoop.eq_def]
  split
  · rename_i hnone
    rw [h] at hnone
    cases hnone
  · rename_i q hq
    rw [h] at hq
    cases hq
    rfl

/-- Without another tag, one element is left open: the document. -/
theorem parseLoop_last {s : Bytes} (h : findTag s = none) (stack : List Node) (r : Node) :
    parseLoop s stack = .ok r ↔ stack = [r] := by
  rw [parseLoop.eq_def]
  split
  · cases stack with
    | nil => simp
    | cons top stack => cases stack <;> simp
  · rename_i p hp
    rw [h] at hp
    cases hp

/-- A part of a text is read, up to `rest`, by which at most `n` bytes arrive. -/
def Adds (s rest : Bytes) (n : ℕ) (less : Prop) : Prop :=
  ∀ stack r, parseLoop s stack = .ok r → ∃ stack', parseLoop rest stack' = .ok r ∧
    weightAll stack' ≤ weightAll stack + n ∧ (less → weightAll stack' < weightAll stack + n)

theorem Adds.trans {s t u : Bytes} {n m : ℕ} {p q : Prop} (h : Adds s t n p) (h' : Adds t u m q) :
    Adds s u (n+m) (p ∨ q) := by
  intro stack r hr
  obtain ⟨stack',hr',hle,hlt⟩ := h stack r hr
  obtain ⟨stack'',hr'',hle',hlt'⟩ := h' stack' r hr'
  refine ⟨stack'',hr'',by omega,?_⟩
  rintro (hp | hq)
  · have := hlt hp
    omega
  · have := hlt' hq
    omega

theorem Adds.mono {s t : Bytes} {n m : ℕ} {p q : Prop} (h : Adds s t n p) (hle : n ≤ m) (hq : q → p ∨ n < m) :
    Adds s t m q := by
  intro stack r hr
  obtain ⟨stack',hr',hle',hlt⟩ := h stack r hr
  refine ⟨stack',hr',by omega,fun h => ?_⟩
  rcases hq h with hp | hlt'
  · have := hlt hp
    omega
  · omega

/-- A text and the tag behind it. -/
theorem adds_found {s : Bytes} {P : List Letter} {t : Tag} (h : findTag s = some (render P,t)) :
    Adds s t.rest (held P) (Live P) := by
  intro stack r hr
  rw [parseLoop_found h] at hr
  obtain ⟨stack₁,htext,hr⟩ := bind_eq_ok.mp hr
  obtain ⟨stack₂,htag,hr⟩ := bind_eq_ok.mp hr
  refine ⟨stack₂,hr,?_⟩
  rw [addTag_weight htag]
  exact addText_weight htext

theorem held_le (X : List Letter) : held X ≤ X.length := by
  rw [held]
  split
  · exact Nat.zero_le _
  · exact le_rfl

/-- The text of an element, whatever it contains. -/
theorem adds_text {e rest : Bytes} {t : Tag} (he : Ended e) (hfind : findTag e = some ([],t))
    (hrest : t.rest = rest) (hpast : past e = rest) (X : List Letter) :
    Adds (render X ++ e) rest (held X) (¬ Legible X) := by
  induction hn : X.length using Nat.strong_induction_on generalizing X with
  | _ n ih =>
    subst hn
    cases hforged : forged X with
    | false =>
      have hfound := findTag_text he X hforged
      rw [hfind, Option.map_some, List.append_nil] at hfound
      refine hrest ▸ (adds_found hfound).mono le_rfl (fun hnot => .inl ?_)
      by_contra hdead
      exact hnot ⟨hdead,hforged⟩
    | true =>
      obtain ⟨P,S,t',rfl,hfound,hnext⟩ := findTag_forged he X hforged
      have hblank : ¬ blank (render (P ++ S)) = true := by
        intro hblank
        rw [blank_not_forged hblank] at hforged
        cases hforged
      have hheld : held (P ++ S) = P.length + S.length := by rw [held, if_neg hblank, List.length_append]
      have hP := held_le P
      rcases hnext with ⟨Y,hlength,hY⟩ | ⟨hS,hY⟩
      · have hadds := (adds_found hfound).trans
          (hY ▸ ih Y.length (by rw [List.length_append]; omega) Y rfl)
        have hle := held_le Y
        exact hadds.mono (by omega) (fun _ => .inr (by omega))
      · rw [hpast] at hY
        have hpos := List.length_pos_iff.mpr hS
        exact (hY ▸ adds_found hfound).mono (by omega) (fun _ => .inr (by omega))

end Weight

section Texts

def hollow (data : Bytes) : Bool := data.all (· = byte ' ')

theorem passed_eq_nil {c : UInt8} (h : c ≠ byte '&') (cs : Bytes) : passed (c::cs) = [] := by
  rw [passed, if_neg]
  intro hpre
  obtain ⟨rest,hrest⟩ := List.isPrefixOf_iff_prefix.mp hpre
  exact h (List.cons.inj hrest).1.symm

theorem isSpace_raw (c : UInt8) : entity c = none → isSpace c = decide (c = byte ' ') := by
  revert c
  exact forall_byte (by decide +kernel)

theorem entity_blank (c : UInt8) : (entity c).isSome = true → c ≠ byte ' ' := by
  revert c
  exact forall_byte (by decide +kernel)

theorem blank_append (s t : Bytes) : blank (s ++ t) = (blank s && blank t) := List.all_append

theorem blank_reference (t : Bytes) : blank (byte '&' :: t) = false := rfl

theorem encodeFrom_ampersand (cs : Bytes) : ∃ t, encodeFrom 0 (byte '&' :: cs) = byte '&' :: t := by
  simp only [encodeFrom, if_true]
  split <;> exact ⟨_,rfl⟩

theorem encodeFrom_byte {c : UInt8} (h : c ≠ byte '&') (cs : Bytes) :
    encodeFrom 0 (c::cs) = encodeByte c ++ encodeFrom 0 cs := by
  simp only [encodeFrom, passed_eq_nil h, List.length_nil, if_true]

theorem blank_encodeByte (c : UInt8) : blank (encodeByte c) = decide (c = byte ' ') := by
  rw [encodeByte]
  cases he : entity c with
  | none =>
    rw [← isSpace_raw c he]
    simp [blank]
  | some name =>
    have hne := entity_blank c (he ▸ rfl)
    rw [decide_eq_false hne]
    exact blank_reference _

theorem blank_encodeString (data : Bytes) : blank (encodeString data) = hollow data := by
  rw [encodeString]
  induction data with
  | nil => rfl
  | cons c cs ih =>
    rw [hollow, List.all_cons]
    by_cases hc : c = byte '&'
    · subst hc
      obtain ⟨t,ht⟩ := encodeFrom_ampersand cs
      rw [ht]
      rfl
    · rw [encodeFrom_byte hc, blank_append, blank_encodeByte, ih]
      rfl

def Readable (data : Bytes) : Prop := Legible (letters data)

instance (data : Bytes) : Decidable (Readable data) :=
  decidable_of_iff (¬ Live (letters data) ∧ forged (letters data) = false)
    ⟨fun h => ⟨h.1,h.2⟩,fun h => ⟨h.dead,h.text⟩⟩

def heldText (data : Bytes) : ℕ := if hollow data then 0 else data.length

def arrivedText (data : Bytes) : Option Bytes := if hollow data then none else some data

theorem letters_plain {data : Bytes} (h : byte '&' ∉ data) : letters data = data.map letterOf := by
  rw [letters]
  induction data with
  | nil => rfl
  | cons c cs ih =>
    have hc : c ≠ byte '&' := fun he => h (he ▸ List.mem_cons_self)
    simp only [lettersFrom, passed_eq_nil hc, List.length_nil, if_true, List.map_cons]
    rw [ih (fun hmem => h (List.mem_cons_of_mem _ hmem))]

theorem letterOf_view (c : UInt8) :
    (letterOf c).view ≠ some (byte '&') ∧ (letterOf c).view ≠ some (byte '<') := by
  revert c
  exact forall_byte (by decide +kernel)

/-- Nothing passes through in a text without a `&`. -/
theorem readable_plain {data : Bytes} (h : byte '&' ∉ data) : Readable data := by
  have hplain := letters_plain h
  constructor
  · rintro ⟨dec,-,hlive⟩
    rw [hplain] at hlive
    clear h hplain
    induction data with
    | nil => cases hlive
    | cons c cs ih =>
      rw [List.map_cons, live, replaced, if_neg (letterOf_view c).1] at hlive
      exact ih hlive
  · rw [hplain]
    clear h hplain
    induction data with
    | nil => rfl
    | cons c cs ih =>
      rw [List.map_cons, forged, ih, Bool.or_false, Bool.and_eq_false_iff]
      exact .inl (beq_eq_false_iff_ne.mpr (letterOf_view c).2)

theorem held_letters (data : Bytes) : held (letters data) = heldText data := by
  rw [held, ← encodeString_eq, blank_encodeString, letters_length]
  rfl

theorem heldText_eq (data : Bytes) : heldText data = ((arrivedText data).getD []).length := by
  rw [heldText, arrivedText]
  split <;> rfl

structure PlainAttribute (a : Bytes × Bytes) : Prop where
  nonempty : a.1 ≠ []
  name : ∀ b ∈ a.1, isAlnum b = true
  value : ∀ b ∈ a.2, (isDigit b || b = byte '-') = true

end Texts

section Elements

mutual
def Writable : TiXmlElement → Prop
  | .leaf tag _ => Label tag
  | .node tag attributes children => Label tag ∧ (∀ a ∈ attributes, PlainAttribute a) ∧ WritableAll children

def WritableAll : List TiXmlElement → Prop
  | [] => True
  | child::children => Writable child ∧ WritableAll children
end

mutual
def texts : TiXmlElement → List Bytes
  | .leaf _ data => [data]
  | .node _ _ children => textsAll children

def textsAll : List TiXmlElement → List Bytes
  | [] => []
  | child::children => texts child ++ textsAll children
end

mutual
def arrived : TiXmlElement → Node
  | .leaf tag data => .mk (some tag) (arrivedText data) [] []
  | .node tag attributes children => .mk (some tag) none (arrivedAll children) attributes

def arrivedAll : List TiXmlElement → List Node
  | [] => []
  | child::children => arrived child :: arrivedAll children
end

def heldAll (data : List Bytes) : ℕ := (data.map heldText).sum

theorem element_induction {P : TiXmlElement → Prop} (leaf : ∀ tag data, P (.leaf tag data))
    (node : ∀ tag attributes children, (∀ child ∈ children, P child) → P (.node tag attributes children))
    (x : TiXmlElement) : P x :=
  @TiXmlElement.rec P (fun children => ∀ child ∈ children, P child) leaf node
    (List.forall_mem_nil _)
    (fun _ _ hchild hchildren => List.forall_mem_cons.mpr ⟨hchild,hchildren⟩) x

theorem heldAll_append (data data' : List Bytes) : heldAll (data ++ data') = heldAll data + heldAll data' := by
  rw [heldAll, List.map_append, List.sum_append]
  rfl

theorem weight_arrivedAll {xs : List TiXmlElement} (ih : ∀ x ∈ xs, weight (arrived x) = heldAll (texts x)) :
    weightAll (arrivedAll xs) = heldAll (textsAll xs) := by
  induction xs with
  | nil => rfl
  | cons x xs ihs =>
    obtain ⟨hx,hxs⟩ := List.forall_mem_cons.mp ih
    rw [arrivedAll, weightAll_cons, hx, ihs hxs, textsAll, heldAll_append]

theorem weight_arrived (x : TiXmlElement) : weight (arrived x) = heldAll (texts x) := by
  induction x using element_induction with
  | leaf tag data => simp [arrived, weight, texts, heldAll, heldText_eq]
  | node tag attributes children ih =>
    rw [arrived, weight, texts, Option.getD_none, List.length_nil, Nat.zero_add]
    exact weight_arrivedAll ih

theorem weightAll_arrived (xs : List TiXmlElement) : weightAll (arrivedAll xs) = heldAll (textsAll xs) :=
  weight_arrivedAll (fun x _ => weight_arrived x)

end Elements

section Attributes

theorem encodeString_plain {s : Bytes} (h : ∀ b ∈ s, entity b = none) : encodeString s = s := by
  rw [encodeString]
  induction s with
  | nil => rfl
  | cons b s ih =>
    obtain ⟨hb,hs⟩ := List.forall_mem_cons.mp h
    have hne : b ≠ byte '&' := by
      rintro rfl
      cases hb
    rw [encodeFrom_byte hne, ih hs, encodeByte, hb]
    rfl

theorem isAlnum_plain (b : UInt8) : isAlnum b = true →
    entity b = none ∧ b ≠ byte '"' ∧ b ≠ byte '>' ∧ b ≠ byte '/' := by
  revert b
  exact forall_byte (by decide +kernel)

theorem value_plain (b : UInt8) : (isDigit b || b = byte '-') = true →
    entity b = none ∧ b ≠ byte '"' ∧ b ≠ byte '&' ∧ b ≠ byte '>' ∧ b ≠ byte '/' := by
  revert b
  exact forall_byte (by decide +kernel)

def plainText (a : Bytes × Bytes) : Bytes := a.1 ++ byte '=' :: byte '"' :: a.2 ++ [byte '"']

theorem printAttribute_plain {a : Bytes × Bytes} (h : PlainAttribute a) : printAttribute a = plainText a := by
  have hquote : byte '"' ∉ a.2 := fun hmem => (value_plain _ (h.value _ hmem)).2.1 rfl
  rw [printAttribute, if_neg hquote, encodeString_plain (fun b hb => (isAlnum_plain b (h.name b hb)).1),
    encodeString_plain (fun b hb => (value_plain b (h.value b hb)).1)]
  rfl

theorem fromXmlString_plain {v : Bytes} (h : ∀ b ∈ v, (isDigit b || b = byte '-') = true) :
    fromXmlString v = .ok v := by
  have hplain : encodeString v = v := encodeString_plain (fun b hb => (value_plain b (h b hb)).1)
  have hlive : ¬ Live (letters v) := by
    rintro ⟨dec,-,hlive⟩
    have hmem := ampersand_live hlive
    rw [← encodeString_eq, hplain] at hmem
    exact (value_plain _ (h _ hmem)).2.2.1 rfl
  have hread := (fromXmlString_encodeString v).mpr hlive
  rwa [hplain] at hread

theorem argMatches_space (s : Bytes) : argMatches (byte ' ' :: s) = argMatches s := by
  have hw : (byte ' ' :: s).takeWhile isAlnum = [] := rfl
  rw [argMatches, hw]
  cases s <;> simp

theorem argMatches_attribute {a : Bytes × Bytes} (h : PlainAttribute a) (rest : Bytes) :
    argMatches (plainText a ++ rest) = a :: argMatches rest := by
  obtain ⟨name,value⟩ := a
  have hquote : byte '"' ∉ value := fun hmem => (value_plain _ (h.value _ hmem)).2.1 rfl
  have htext : plainText (name,value) ++ rest =
      name ++ (byte '=' :: byte '"' :: (value ++ byte '"' :: rest)) := by simp [plainText]
  have hname : (name ++ (byte '=' :: byte '"' :: (value ++ byte '"' :: rest))).takeWhile isAlnum = name := by
    apply takeWhile_stop h.name
    rintro b hb
    cases hb
    decide
  have hvalue : (value ++ byte '"' :: rest).takeWhile (· ≠ byte '"') = value := by
    refine takeWhile_stop (fun b hb => ?_) ?_
    · simp only [ne_eq, decide_not, Bool.not_eq_true', decide_eq_false_iff_not]
      exact fun he => hquote (he ▸ hb)
    · rintro b hb
      cases hb
      decide
  obtain ⟨c,cs,hc⟩ := List.exists_cons_of_ne_nil h.nonempty
  have hc' : name = c::cs := hc
  rw [htext]
  have hcons : name ++ (byte '=' :: byte '"' :: (value ++ byte '"' :: rest)) =
      c :: (cs ++ (byte '=' :: byte '"' :: (value ++ byte '"' :: rest))) := by rw [hc']; rfl
  rw [hcons, argMatches, ← hcons, hname, List.drop_left]
  have hmem : byte '"' ∈ value ++ byte '"' :: rest := List.mem_append_right _ List.mem_cons_self
  dsimp only
  rw [if_pos ⟨h.nonempty,rfl,.inl rfl,hmem⟩, hvalue]
  congr 2
  subst hc'
  have hsplit : cs ++ byte '=' :: byte '"' :: (value ++ byte '"' :: rest) =
      (cs ++ byte '=' :: byte '"' :: value ++ [byte '"']) ++ rest := by simp
  rw [hsplit, List.drop_left']
  simp only [List.length_append, List.length_cons, List.length_nil]
  omega

theorem printAttributes_cons (a : Bytes × Bytes) (as : List (Bytes × Bytes)) (h : PlainAttribute a) :
    printAttributes (a::as) = byte ' ' :: plainText a ++ printAttributes as := by
  rw [printAttributes, List.flatMap_cons, printAttribute_plain h]
  rfl

theorem argMatches_attributes {as : List (Bytes × Bytes)} (h : ∀ a ∈ as, PlainAttribute a) (rest : Bytes) :
    argMatches (printAttributes as ++ rest) = as ++ argMatches rest := by
  induction as with
  | nil => rfl
  | cons a as ih =>
    obtain ⟨ha,has⟩ := List.forall_mem_cons.mp h
    have htext : printAttributes (a::as) ++ rest = byte ' ' :: (plainText a ++ (printAttributes as ++ rest)) := by
      rw [printAttributes_cons a as ha]
      simp
    rw [htext, argMatches_space, argMatches_attribute ha, ih has]
    rfl

/-- The arguments of a printed tag, before its `>` or before a ` />`. -/
theorem parseArgs_attributes {as : List (Bytes × Bytes)} (h : ∀ a ∈ as, PlainAttribute a) (rest : Bytes)
    (hrest : argMatches rest = []) : parseArgs (printAttributes as ++ rest) = .ok as := by
  rw [parseArgs, argMatches_attributes h, hrest, List.append_nil]
  induction as with
  | nil => rfl
  | cons a as ih =>
    obtain ⟨ha,has⟩ := List.forall_mem_cons.mp h
    rw [List.mapM_cons, fromXmlString_plain ha.value, ih has]
    rfl

theorem plainText_bytes {a : Bytes × Bytes} (h : PlainAttribute a) {b : UInt8} (hb : b ∈ plainText a) :
    b ≠ byte '>' ∧ b ≠ byte '/' := by
  rcases List.mem_append.mp hb with hb | hb
  · rcases List.mem_append.mp hb with hb | hb
    · exact (isAlnum_plain b (h.name b hb)).2.2
    · rcases List.mem_cons.mp hb with rfl | hb
      · decide
      · rcases List.mem_cons.mp hb with rfl | hb
        · decide
        · exact (value_plain b (h.value b hb)).2.2.2
  · rw [List.mem_singleton.mp hb]
    decide

theorem printAttributes_bytes {as : List (Bytes × Bytes)} (h : ∀ a ∈ as, PlainAttribute a) {b : UInt8}
    (hb : b ∈ printAttributes as) : b ≠ byte '>' ∧ b ≠ byte '/' := by
  rw [printAttributes, List.mem_flatMap] at hb
  obtain ⟨a,ha,hb⟩ := hb
  rcases List.mem_cons.mp hb with rfl | hb
  · decide
  · rw [printAttribute_plain (h a ha)] at hb
    exact plainText_bytes (h a ha) hb

theorem printAttributes_boundary (as : List (Bytes × Bytes)) :
    ∀ b ∈ (printAttributes as).head?, isLabel b = false := by
  cases as with
  | nil =>
    intro b hb
    cases hb
  | cons a as =>
    rintro b hb
    cases hb
    decide

end Attributes

section Reading

theorem matchTag_closing {tag : Bytes} (h : Label tag) (rest : Bytes) :
    matchTag (closing tag ++ rest) = some ⟨true,tag,[],false,rest⟩ := by
  have htext : closing tag = tagText true tag [] := by simp [closing, tagText, text]
  rw [htext]
  exact matchTag_eq h ⟨List.not_mem_nil,fun b hb => (by cases hb)⟩ true rest

theorem matchTag_start {tag : Bytes} (h : Label tag) {as : List (Bytes × Bytes)}
    (has : ∀ a ∈ as, PlainAttribute a) (rest : Bytes) :
    matchTag (tagText false tag (printAttributes as) ++ rest) =
      some ⟨false,tag,printAttributes as,false,rest⟩ := by
  have hlast : ((printAttributes as).getLast? == some (byte '/')) = false := by
    rw [beq_eq_false_iff_ne]
    exact fun he => (printAttributes_bytes has (List.mem_of_getLast? he)).2 rfl
  have hbody : Body (printAttributes as) :=
    ⟨fun hb => (printAttributes_bytes has hb).1 rfl,printAttributes_boundary as⟩
  rw [matchTag_eq h hbody, hlast]
  rfl

theorem matchTag_empty {tag : Bytes} (h : Label tag) {as : List (Bytes × Bytes)}
    (has : ∀ a ∈ as, PlainAttribute a) (rest : Bytes) :
    matchTag (tagText false tag (printAttributes as ++ text " /") ++ rest) =
      some ⟨false,tag,printAttributes as ++ text " ",true,rest⟩ := by
  have hsplit : printAttributes as ++ text " /" = (printAttributes as ++ text " ") ++ [byte '/'] := by simp [text]
  have hbody : Body (printAttributes as ++ text " /") := by
    constructor
    · rw [List.mem_append]
      rintro (hb | hb)
      · exact (printAttributes_bytes has hb).1 rfl
      · exact absurd hb (by decide)
    · cases as with
      | nil =>
        rintro b hb
        cases hb
        decide
      | cons a as => exact printAttributes_boundary (a::as)
  have hlast : (printAttributes as ++ text " /").getLast? = some (byte '/') := by
    rw [hsplit, List.getLast?_concat]
  rw [matchTag_eq h hbody, hlast, hsplit, List.dropLast_concat]
  rfl

theorem opened_not_blank {ws : Bytes} (h : blank ws = true) : byte '<' ∉ ws :=
  fun hmem => absurd (List.all_eq_true.mp h _ hmem) (by decide)

theorem findTag_blank {ws s : Bytes} (h : blank ws = true) {t : Tag} (hs : matchTag s = some t) :
    findTag (ws ++ s) = some (ws,t) := by
  rw [findTag_append (opened_not_blank h), findTag_matched hs, Option.map_some, List.append_nil]

/-- A tag behind blank text. -/
theorem parseLoop_tag {ws s : Bytes} (h : blank ws = true) {t : Tag} (hs : matchTag s = some t) (top : Node)
    (stack : List Node) : parseLoop (ws ++ s) (top::stack) = (do
      let stack ← addTag t (top::stack)
      parseLoop t.rest stack) := by
  rw [parseLoop_found (findTag_blank h hs), addText, if_pos h]
  rfl

variable {tag : Bytes} {as : List (Bytes × Bytes)}

theorem parseLoop_start {ws : Bytes} (hws : blank ws = true) (h : Label tag) (has : ∀ a ∈ as, PlainAttribute a)
    (rest : Bytes) (top : Node) (stack : List Node) :
    parseLoop (ws ++ (tagText false tag (printAttributes as) ++ rest)) (top::stack) =
      parseLoop rest (newNode tag as :: top :: stack) := by
  have hargs := parseArgs_attributes has [] (by simp [argMatches])
  rw [List.append_nil] at hargs
  rw [parseLoop_tag hws (matchTag_start h has rest), addTag_opening rfl rfl, hargs]
  rfl

theorem parseLoop_empty {ws : Bytes} (hws : blank ws = true) (h : Label tag) (has : ∀ a ∈ as, PlainAttribute a)
    (rest : Bytes) (top : Node) (stack : List Node) :
    parseLoop (ws ++ (tagText false tag (printAttributes as ++ text " /") ++ rest)) (top::stack) =
      parseLoop rest (top.addChild (newNode tag as) :: stack) := by
  have hspace : argMatches (text " ") = [] := (argMatches_space []).trans (by simp [argMatches])
  rw [parseLoop_tag hws (matchTag_empty h has rest), addTag_empty rfl, parseArgs_attributes has _ hspace]
  rfl

theorem parseLoop_closing {ws : Bytes} (hws : blank ws = true) (h : Label tag) (rest : Bytes) {n : Node}
    (hn : n.name = some tag) (top : Node) (stack : List Node) :
    parseLoop (ws ++ (closing tag ++ rest)) (n::top::stack) = parseLoop rest (top.addChild n :: stack) := by
  rw [parseLoop_tag hws (matchTag_closing h rest), addTag_closes rfl rfl hn]
  rfl

theorem ended_closing (tag rest : Bytes) : Ended (closing tag ++ rest) :=
  ⟨⟨_,rfl⟩,List.mem_append_left _ (List.mem_append_right _ List.mem_cons_self)⟩

theorem past_closing (h : Label tag) (rest : Bytes) : past (closing tag ++ rest) = rest := by
  have hread := matchTag_past (b := byte '<') (matchTag_closing h rest)
  exact hread.symm

/-- A readable text goes into the open element as it was written. -/
theorem parseLoop_text (h : Label tag) {data : Bytes} (hdata : Readable data) (rest : Bytes) (top : Node)
    (stack : List Node) :
    parseLoop (encodeString data ++ (closing tag ++ rest)) (newNode tag [] :: top :: stack) =
      parseLoop rest (top.addChild (.mk (some tag) (arrivedText data) [] []) :: stack) := by
  have hfound := findTag_text (ended_closing tag rest) (letters data) hdata.text
  rw [findTag_matched (matchTag_closing h rest), Option.map_some, List.append_nil] at hfound
  rw [encodeString_eq, parseLoop_found hfound, addText, ← encodeString_eq, blank_encodeString, arrivedText]
  split
  · change addTag _ _ >>= _ = _
    rw [addTag_closes rfl rfl rfl]
    rfl
  · rw [(fromXmlString_encodeString data).mpr hdata.dead]
    change addTag _ _ >>= _ = _
    rw [addTag_closes rfl rfl rfl]
    rfl

end Reading

section Documents

variable (indent : Bytes) (depth : ℕ)

theorem printElement_leaf (tag data rest : Bytes) :
    printElement indent depth (.leaf tag data) ++ rest =
      doIndent indent depth ++ (tagText false tag (printAttributes []) ++
        (encodeString data ++ (closing tag ++ (doLineBreak ++ rest)))) := by
  simp [printElement, tagText, text, printAttributes]

theorem printElement_empty (tag : Bytes) (as : List (Bytes × Bytes)) (rest : Bytes) :
    printElement indent depth (.node tag as []) ++ rest =
      doIndent indent depth ++ (tagText false tag (printAttributes as ++ text " /") ++
        (doLineBreak ++ rest)) := by
  simp [printElement, tagText, text]

theorem printElement_node (tag : Bytes) (as : List (Bytes × Bytes)) (x : TiXmlElement) (xs : List TiXmlElement)
    (rest : Bytes) : printElement indent depth (.node tag as (x::xs)) ++ rest =
      doIndent indent depth ++ (tagText false tag (printAttributes as) ++
        (doLineBreak ++ (printAll indent (depth+1) (x::xs) ++
          (doIndent indent depth ++ (closing tag ++ (doLineBreak ++ rest)))))) := by
  simp [printElement, tagText, text]

theorem blank_doIndent {indent : Bytes} (h : blank indent = true) (depth : ℕ) :
    blank (doIndent indent depth) = true := by
  rw [doIndent, blank, List.all_flatten]
  simp [List.all_replicate, show indent.all isSpace = true from h]

theorem blank_indented {indent : Bytes} (h : blank indent = true) (depth : ℕ) {ws : Bytes}
    (hws : blank ws = true) : blank (ws ++ doIndent indent depth) = true := by
  rw [blank_append, hws, blank_doIndent h]
  rfl

variable {indent depth}

def Parsed (indent : Bytes) (x : TiXmlElement) : Prop :=
  Writable x → (∀ data ∈ texts x, Readable data) → ∀ depth ws rest top stack, blank ws = true →
    parseLoop (ws ++ (printElement indent depth x ++ rest)) (top::stack) =
      parseLoop (doLineBreak ++ rest) (top.addChild (arrived x) :: stack)

def addChildren (top : Node) (children : List Node) : Node := children.foldl Node.addChild top

theorem addChildren_eq (name value : Option Bytes) (cs children : List Node) (props : List (Bytes × Bytes)) :
    addChildren (.mk name value cs props) children = .mk name value (cs ++ children) props := by
  induction children generalizing cs with
  | nil => simp [addChildren]
  | cons c children ih =>
    have := ih (cs ++ [c])
    rw [addChildren] at this ⊢
    rw [List.foldl_cons, Node.addChild, this, List.append_assoc]
    rfl

/-- The elements one after another. -/
theorem parseLoop_all {xs : List TiXmlElement} (ih : ∀ x ∈ xs, Parsed indent x) (h : WritableAll xs)
    (hdata : ∀ data ∈ textsAll xs, Readable data) (depth : ℕ) (ws : Bytes) (hws : blank ws = true)
    (rest : Bytes) (top : Node) (stack : List Node) : ∃ ws', blank ws' = true ∧
      parseLoop (ws ++ (printAll indent depth xs ++ rest)) (top::stack) =
        parseLoop (ws' ++ rest) (addChildren top (arrivedAll xs) :: stack) := by
  induction xs generalizing ws top with
  | nil => exact ⟨ws,hws,rfl⟩
  | cons x xs ihs =>
    obtain ⟨hx,hxs⟩ := List.forall_mem_cons.mp ih
    obtain ⟨hleft,hright⟩ := h
    rw [textsAll] at hdata
    obtain ⟨hfirst,hlater⟩ := List.forall_mem_append.mp hdata
    obtain ⟨ws',hws',hall⟩ := ihs hxs hright hlater doLineBreak (by decide) (top.addChild (arrived x))
    refine ⟨ws',hws',?_⟩
    rw [printAll, List.append_assoc, hx hleft hfirst depth ws _ top stack hws, hall]
    rfl

theorem parsed_element (hindent : blank indent = true) (x : TiXmlElement) : Parsed indent x := by
  induction x using element_induction with
  | leaf tag data =>
    intro hlabel hdata depth ws rest top stack hws
    have hbefore := blank_indented hindent depth hws
    rw [printElement_leaf, ← List.append_assoc ws,
      parseLoop_start hbefore hlabel (List.forall_mem_nil _),
      parseLoop_text hlabel (hdata data List.mem_cons_self)]
    rfl
  | node tag as children ih =>
    rintro ⟨hlabel,has,hchildren⟩ hdata depth ws rest top stack hws
    have hbefore := blank_indented hindent depth hws
    cases children with
    | nil =>
      rw [printElement_empty, ← List.append_assoc ws, parseLoop_empty hbefore hlabel has]
      rfl
    | cons x xs =>
      obtain ⟨ws',hws',hall⟩ := parseLoop_all ih hchildren hdata (depth+1) doLineBreak (by decide)
        (doIndent indent depth ++ (closing tag ++ (doLineBreak ++ rest))) (newNode tag as) (top::stack)
      have hafter := blank_indented hindent depth hws'
      rw [printElement_node, ← List.append_assoc ws, parseLoop_start hbefore hlabel has, hall, newNode,
        addChildren_eq, ← List.append_assoc ws', parseLoop_closing hafter hlabel _ rfl]
      rfl

theorem parseLoop_end {ws : Bytes} (h : blank ws = true) (stack : List Node) (r : Node) :
    parseLoop ws stack = .ok r ↔ stack = [r] := by
  have hnone := findTag_append (opened_not_blank h) []
  rw [List.append_nil] at hnone
  exact parseLoop_last hnone stack r

def arrivedDocument (xs : List TiXmlElement) : Node := .mk none none (arrivedAll xs) []

theorem parse_readable (hindent : blank indent = true) {xs : List TiXmlElement} (h : WritableAll xs)
    (hdata : ∀ data ∈ textsAll xs, Readable data) : parseXmlText (print indent xs) = .ok (arrivedDocument xs) := by
  obtain ⟨ws,hws,hall⟩ := parseLoop_all (fun x _ => parsed_element hindent x) h hdata 0 [] rfl []
    (.mk none none [] []) []
  rw [List.nil_append, List.append_nil, List.append_nil, (parseLoop_end hws _ _).mpr rfl, addChildren_eq] at hall
  exact hall

/-- A tag behind blank text adds nothing. -/
theorem adds_tag {ws s : Bytes} (h : blank ws = true) {t : Tag} (hs : matchTag s = some t) :
    Adds (ws ++ s) t.rest 0 False := by
  intro stack r hr
  rw [parseLoop_found (findTag_blank h hs)] at hr
  obtain ⟨stack₁,htext,hr⟩ := bind_eq_ok.mp hr
  obtain ⟨stack₂,htag,hr⟩ := bind_eq_ok.mp hr
  refine ⟨stack₂,hr,?_,False.elim⟩
  rw [addTag_weight htag]
  cases stack with
  | nil => cases htext
  | cons top stack =>
    rw [addText, if_pos h] at htext
    cases htext
    exact le_rfl

/-- An element adds no more than its texts, and less if one of them is not readable. -/
def Limited (indent : Bytes) (x : TiXmlElement) : Prop :=
  Writable x → ∀ depth ws rest, blank ws = true →
    Adds (ws ++ (printElement indent depth x ++ rest)) (doLineBreak ++ rest) (heldAll (texts x))
      (∃ data ∈ texts x, ¬ Readable data)

theorem adds_all {xs : List TiXmlElement} (ih : ∀ x ∈ xs, Limited indent x) (h : WritableAll xs) (depth : ℕ)
    (ws : Bytes) (hws : blank ws = true) (rest : Bytes) : ∃ ws', blank ws' = true ∧
      Adds (ws ++ (printAll indent depth xs ++ rest)) (ws' ++ rest) (heldAll (textsAll xs))
        (∃ data ∈ textsAll xs, ¬ Readable data) := by
  induction xs generalizing ws with
  | nil =>
    refine ⟨ws,hws,fun stack r hr => ⟨stack,hr,le_rfl,?_⟩⟩
    rintro ⟨data,hdata,-⟩
    cases hdata
  | cons x xs ihs =>
    obtain ⟨hx,hxs⟩ := List.forall_mem_cons.mp ih
    obtain ⟨hleft,hright⟩ := h
    obtain ⟨ws',hws',hall⟩ := ihs hxs hright doLineBreak (by decide)
    refine ⟨ws',hws',?_⟩
    rw [printAll, List.append_assoc, textsAll, heldAll_append]
    apply ((hx hleft depth ws _ hws).trans hall).mono le_rfl
    rintro ⟨data,hdata,hnot⟩
    exact .inl ((List.mem_append.mp hdata).imp (fun hmem => ⟨data,hmem,hnot⟩) (fun hmem => ⟨data,hmem,hnot⟩))

theorem limited_element (hindent : blank indent = true) (x : TiXmlElement) : Limited indent x := by
  induction x using element_induction with
  | leaf tag data =>
    intro hlabel depth ws rest hws
    have hbefore := blank_indented hindent depth hws
    have htext := adds_text (ended_closing tag (doLineBreak ++ rest))
      (findTag_matched (matchTag_closing hlabel _)) rfl (past_closing hlabel _) (letters data)
    rw [← encodeString_eq, held_letters] at htext
    rw [printElement_leaf, ← List.append_assoc ws]
    refine ((adds_tag hbefore (matchTag_start hlabel (List.forall_mem_nil _) _)).trans
      htext).mono (by simp [texts, heldAll]) ?_
    rintro ⟨data',hdata,hnot⟩
    obtain rfl := List.mem_singleton.mp hdata
    exact .inl (.inr hnot)
  | node tag as children ih =>
    rintro ⟨hlabel,has,hchildren⟩ depth ws rest hws
    have hbefore := blank_indented hindent depth hws
    cases children with
    | nil =>
      rw [printElement_empty, ← List.append_assoc ws]
      apply (adds_tag hbefore (matchTag_empty hlabel has _)).mono (Nat.zero_le _)
      rintro ⟨data,hdata,-⟩
      cases hdata
    | cons x xs =>
      obtain ⟨ws',hws',hall⟩ := adds_all ih hchildren (depth+1) doLineBreak (by decide)
        (doIndent indent depth ++ (closing tag ++ (doLineBreak ++ rest)))
      have hafter := blank_indented hindent depth hws'
      rw [← List.append_assoc ws'] at hall
      rw [printElement_node, ← List.append_assoc ws]
      refine ((adds_tag hbefore (matchTag_start hlabel has _)).trans
        (hall.trans (adds_tag hafter (matchTag_closing hlabel _)))).mono ?_ (fun h => .inl (.inr (.inl h)))
      rw [texts]
      omega

/-- What the reader makes of a document: the texts that arrive, or less. -/
theorem parse_weight (hindent : blank indent = true) {xs : List TiXmlElement} (h : WritableAll xs) {r : Node}
    (hr : parseXmlText (print indent xs) = .ok r) : weight r ≤ heldAll (textsAll xs) ∧
      ((∃ data ∈ textsAll xs, ¬ Readable data) → weight r < heldAll (textsAll xs)) := by
  obtain ⟨ws,hws,hall⟩ := adds_all (fun x _ => limited_element hindent x) h 0 [] rfl []
  rw [List.nil_append, List.append_nil, List.append_nil] at hall
  obtain ⟨stack,hend,hle,hlt⟩ := hall _ r hr
  obtain rfl := (parseLoop_end hws _ _).mp hend
  simpa [weight] using And.intro hle hlt

/-- A printed document is read as it was written exactly if its texts are readable. -/
theorem parse_print_iff (hindent : blank indent = true) {xs : List TiXmlElement} (h : WritableAll xs) :
    parseXmlText (print indent xs) = .ok (arrivedDocument xs) ↔ ∀ data ∈ textsAll xs, Readable data := by
  constructor
  · intro hr
    by_contra hnot
    push Not at hnot
    have hlt := (parse_weight hindent h hr).2 hnot
    have hweight : weight (arrivedDocument xs) = heldAll (textsAll xs) := by
      rw [arrivedDocument, weight, Option.getD_none, List.length_nil, Nat.zero_add, weightAll_arrived]
    omega
  · exact parse_readable hindent h

end Documents

end Vecoda.PrintedDocuments

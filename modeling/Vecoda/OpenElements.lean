import Vecoda.PrintedDocuments

/-!
# The place of an element

An element that the reader has opened keeps its place, its tag and its
attributes, whatever the texts behind it contain: it is closed into the element
around it, or the reader fails.
-/

set_option autoImplicit false

namespace Vecoda.OpenElements
open MessagePipe LuaText XmlSimple XmlPrinter TextReferences PrintedTags PrintedDocuments TableDocument

structure Step where
  index : ℕ
  tag : Bytes
  attributes : List (Bytes × Bytes)

def Step.Fits (p : Step) (n : Node) : Prop := n.name = some p.tag ∧ n.props = p.attributes

def Leads : List Step → Node → Prop
  | [], _ => True
  | p::path, n => ∃ c, n.children[p.index]? = some c ∧ p.Fits c ∧ Leads path c

/-- The open elements, the outermost first: the path goes down to a child, or on
to the next open element, which will be the child. -/
def Spine : List Node → List Step → Prop
  | [], _ => False
  | n::ns, path => Leads path n ∨ ∃ p rest, path = p::rest ∧ n.children.length = p.index ∧
      (∃ m ∈ ns.head?, p.Fits m) ∧ Spine ns rest

/-- Paths that begin with one step lead through one child. -/
theorem leads_through {ι : Type} [Nonempty ι] {p : Step} {n : Node} (f : ι → List Step)
    (h : ∀ i, Leads (p :: f i) n) : ∃ c, n.children[p.index]? = some c ∧ p.Fits c ∧ ∀ i, Leads (f i) c := by
  obtain ⟨i⟩ := ‹Nonempty ι›
  obtain ⟨c,hc,hfits,-⟩ := h i
  refine ⟨c,hc,hfits,fun j => ?_⟩
  obtain ⟨c',hc',-,hpath⟩ := h j
  obtain rfl := Option.some.inj (hc.symm.trans hc')
  exact hpath

theorem leads_addChild {path : List Step} {n : Node} (h : Leads path n) (c : Node) :
    Leads path (n.addChild c) := by
  cases path with
  | nil => trivial
  | cons p path =>
    obtain ⟨m,hm,hfits,hrest⟩ := h
    obtain ⟨name,value,children,props⟩ := n
    refine ⟨m,?_,hfits,hrest⟩
    exact List.getElem?_append_left (List.getElem?_eq_some_iff.mp hm).1 ▸ hm

theorem leads_setValue {path : List Step} {n : Node} (h : Leads path n) (v : Bytes) :
    Leads path (n.setValue v) := by
  obtain ⟨name,value,children,props⟩ := n
  cases path with
  | nil => trivial
  | cons p path => exact h

theorem fits_addChild {p : Step} {n : Node} (h : p.Fits n) (c : Node) : p.Fits (n.addChild c) := by
  obtain ⟨name,value,children,props⟩ := n
  exact h

theorem fits_setValue {p : Step} {n : Node} (h : p.Fits n) (v : Bytes) : p.Fits (n.setValue v) := by
  obtain ⟨name,value,children,props⟩ := n
  exact h

theorem spine_single {n : Node} {path : List Step} : Spine [n] path ↔ Leads path n := by
  constructor
  · rintro (h | ⟨p,rest,-,-,⟨m,hm,-⟩,-⟩)
    · exact h
    · cases hm
  · exact fun h => .inl h

/-- Below an open element, its child may change as long as it still fits. -/
theorem spine_below {m : Node} {ns ns' : List Node}
    (hchild : ∀ p : Step, (∃ k ∈ ns.head?, p.Fits k) → ∃ k ∈ ns'.head?, p.Fits k)
    (hbelow : ∀ path, Spine ns path → Spine ns' path) {path : List Step} (h : Spine (m::ns) path) :
    Spine (m::ns') path := by
  rcases h with h | ⟨p,rest,hpath,hlength,hfits,hspine⟩
  · exact .inl h
  · exact .inr ⟨p,rest,hpath,hlength,hchild p hfits,hbelow rest hspine⟩

/-- What happens to the innermost open element. -/
theorem spine_last {ns : List Node} {n n' : Node} {path : List Step} (h : Spine (ns ++ [n]) path)
    (hleads : ∀ path, Leads path n → Leads path n') (hfits : ∀ p : Step, p.Fits n → p.Fits n') :
    Spine (ns ++ [n']) path := by
  induction ns generalizing path with
  | nil => exact spine_single.mpr (hleads path (spine_single.mp h))
  | cons m ns ih =>
    refine spine_below (fun p hp => ?_) (fun _ => ih) h
    cases ns with
    | nil =>
      obtain ⟨k,hk,hp⟩ := hp
      cases hk
      exact ⟨n',rfl,hfits p hp⟩
    | cons k ns => exact hp

theorem spine_push {ns : List Node} {path : List Step} (h : Spine ns path) (n : Node) :
    Spine (ns ++ [n]) path := by
  induction ns generalizing path with
  | nil => cases h
  | cons m ns ih =>
    refine spine_below (fun p hp => ?_) (fun _ => ih) h
    cases ns with
    | nil =>
      obtain ⟨k,hk,-⟩ := hp
      cases hk
    | cons k ns => exact hp

/-- The innermost open element becomes a child of the one around it. -/
theorem spine_pop {ns : List Node} {n c : Node} {path : List Step} (h : Spine (ns ++ [n,c]) path) :
    Spine (ns ++ [n.addChild c]) path := by
  induction ns generalizing path with
  | nil =>
    apply spine_single.mpr
    rcases h with h | ⟨p,rest,rfl,hlength,⟨k,hk,hp⟩,hspine⟩
    · exact leads_addChild h c
    · cases hk
      obtain ⟨name,value,children,props⟩ := n
      refine ⟨c,?_,hp,spine_single.mp hspine⟩
      rw [← hlength]
      exact List.getElem?_concat_length ..
  | cons m ns ih =>
    refine spine_below (fun p hp => ?_) (fun _ => ih) h
    cases ns with
    | nil =>
      obtain ⟨k,hk,hp⟩ := hp
      cases hk
      exact ⟨_,rfl,fits_addChild hp c⟩
    | cons k ns => exact hp

theorem spine_addText {s : Bytes} {stack stack' : List Node} {path : List Step}
    (h : Spine stack.reverse path) (htext : addText s stack = .ok stack') : Spine stack'.reverse path := by
  cases stack with
  | nil => cases h
  | cons top stack =>
    rw [addText] at htext
    split at htext
    · cases htext
      exact h
    · obtain ⟨v,-,htext⟩ := bind_eq_ok.mp htext
      cases htext
      rw [List.reverse_cons] at h ⊢
      exact spine_last h (fun _ h => leads_setValue h _) (fun _ h => fits_setValue h _)

theorem spine_addTag {t : Tag} {stack stack' : List Node} {path : List Step}
    (h : Spine stack.reverse path) (htag : addTag t stack = .ok stack') : Spine stack'.reverse path := by
  rcases addTag_cases htag with ⟨top,rest,props,rfl,rfl⟩ | ⟨props,-,rfl⟩ | ⟨top,parent,rest,rfl,rfl⟩
  · rw [List.reverse_cons] at h ⊢
    exact spine_last h (fun _ h => leads_addChild h _) (fun _ h => fits_addChild h _)
  · rw [List.reverse_cons]
    exact spine_push h _
  · simp only [List.reverse_cons, List.append_assoc, List.cons_append, List.nil_append] at h
    rw [List.reverse_cons]
    exact spine_pop h

/-- What is open has its place in the document. -/
theorem parseLoop_leads (s : Bytes) (stack : List Node) {path : List Step} (h : Spine stack.reverse path)
    {r : Node} (hr : parseLoop s stack = .ok r) : Leads path r := by
  induction hn : s.length using Nat.strong_induction_on generalizing s stack with
  | _ n ih =>
    subst hn
    cases hfound : findTag s with
    | none =>
      obtain rfl := (parseLoop_last hfound stack r).mp hr
      exact spine_single.mp h
    | some p =>
      rw [parseLoop_found hfound] at hr
      obtain ⟨stack₁,htext,hr⟩ := bind_eq_ok.mp hr
      obtain ⟨stack₂,htag,hr⟩ := bind_eq_ok.mp hr
      exact ih _ (findTag_rest s p hfound) p.2.rest stack₂ (spine_addTag (spine_addText h htext) htag) hr rfl

section Printed

variable {indent : Bytes} {tag : Bytes} {as : List (Bytes × Bytes)}

theorem printAll_append (indent : Bytes) (depth : ℕ) (xs ys : List TiXmlElement) :
    printAll indent depth (xs ++ ys) = printAll indent depth xs ++ printAll indent depth ys := by
  induction xs with
  | nil => rfl
  | cons x xs ih => rw [List.cons_append, printAll, printAll, ih, List.append_assoc]

/-- The reader opens an element. -/
theorem parseLoop_opened (hindent : blank indent = true) (hlabel : Label tag) (has : ∀ a ∈ as, PlainAttribute a)
    (x : TiXmlElement) (xs : List TiXmlElement) (depth : ℕ) (ws : Bytes) (hws : blank ws = true) (rest : Bytes) :
    ∃ rest', ∀ top stack,
      parseLoop (ws ++ (printElement indent depth (.node tag as (x::xs)) ++ rest)) (top::stack) =
        parseLoop (doLineBreak ++ (printAll indent (depth+1) (x::xs) ++ rest'))
          (newNode tag as :: top :: stack) := by
  have hbefore := blank_indented hindent depth hws
  refine ⟨doIndent indent depth ++ (closing tag ++ (doLineBreak ++ rest)),fun top stack => ?_⟩
  rw [printElement_node, ← List.append_assoc ws, parseLoop_start hbefore hlabel has]

/-- It opens an element and reads on to one of its children, past others with readable texts. -/
theorem parseLoop_down (hindent : blank indent = true) (hlabel : Label tag) (has : ∀ a ∈ as, PlainAttribute a)
    (ys : List TiXmlElement) (hys : WritableAll ys) (hread : ∀ data ∈ textsAll ys, Readable data)
    (x : TiXmlElement) (zs : List TiXmlElement) (depth : ℕ) (ws : Bytes) (hws : blank ws = true) (rest : Bytes)
    (top : Node) (stack : List Node) : ∃ ws' rest', blank ws' = true ∧
      parseLoop (ws ++ (printElement indent depth (.node tag as (ys ++ x::zs)) ++ rest)) (top::stack) =
        parseLoop (ws' ++ (printElement indent (depth+1) x ++ rest'))
          (.mk (some tag) none (arrivedAll ys) as :: top :: stack) := by
  obtain ⟨y,ys',hchildren⟩ := List.exists_cons_of_ne_nil (List.append_ne_nil_of_right_ne_nil ys
    (List.cons_ne_nil x zs))
  obtain ⟨rest',hopened⟩ := parseLoop_opened hindent hlabel has y ys' depth ws hws rest
  obtain ⟨ws',hws',hall⟩ := parseLoop_all (fun y _ => parsed_element hindent y) hys hread (depth+1) doLineBreak
    (by decide) (printElement indent (depth+1) x ++ printAll indent (depth+1) zs ++ rest') (newNode tag as)
    (top::stack)
  refine ⟨ws',printAll indent (depth+1) zs ++ rest',hws',?_⟩
  rw [hchildren, hopened, ← hchildren, printAll_append, printAll, List.append_assoc, hall, newNode, addChildren_eq,
    List.append_assoc]
  rfl

theorem parseLoop_leaf (hindent : blank indent = true) (hlabel : Label tag) (data : Bytes) (depth : ℕ)
    (ws : Bytes) (hws : blank ws = true) (rest : Bytes) :
    ∃ rest', ∀ top stack, parseLoop (ws ++ (printElement indent depth (.leaf tag data) ++ rest)) (top::stack) =
      parseLoop rest' (newNode tag [] :: top :: stack) := by
  have hbefore := blank_indented hindent depth hws
  refine ⟨encodeString data ++ (closing tag ++ (doLineBreak ++ rest)),fun top stack => ?_⟩
  rw [printElement_leaf, ← List.append_assoc ws,
    parseLoop_start hbefore hlabel (List.forall_mem_nil _)]

/-- The first element of a document, whatever the texts in it contain. -/
theorem leads_element (hindent : blank indent = true) (hlabel : Label tag) (has : ∀ a ∈ as, PlainAttribute a)
    (x : TiXmlElement) (xs : List TiXmlElement) {r : Node}
    (hr : parseXmlText (print indent [.node tag as (x::xs)]) = .ok r) : Leads [⟨0,tag,as⟩] r := by
  obtain ⟨rest,hopened⟩ := parseLoop_opened hindent hlabel has x xs 0 [] rfl []
  have hspine : Spine [Node.mk none none [] [],newNode tag as] [⟨0,tag,as⟩] :=
    .inr ⟨_,[],rfl,rfl,⟨_,rfl,rfl,rfl⟩,.inl trivial⟩
  exact parseLoop_leads _ [newNode tag as,.mk none none [] []] hspine ((hopened _ _).symm.trans hr)

/-- The first text in the first element of an element. -/
theorem leads_leaf (hindent : blank indent = true) (hlabel : Label tag) (has : ∀ a ∈ as, PlainAttribute a)
    {tag' leafTag : Bytes} {as' : List (Bytes × Bytes)} (hlabel' : Label tag')
    (has' : ∀ a ∈ as', PlainAttribute a) (hleaf : Label leafTag) (data : Bytes) (more xs : List TiXmlElement)
    {r : Node} (hr : parseXmlText
      (print indent [.node tag as (.node tag' as' (.leaf leafTag data :: more) :: xs)]) = .ok r) :
    Leads [⟨0,tag,as⟩,⟨0,tag',as'⟩,⟨0,leafTag,[]⟩] r := by
  have hnone : ∀ data ∈ textsAll [], Readable data := List.forall_mem_nil _
  obtain ⟨ws,rest,hws,hfirst⟩ := parseLoop_down hindent hlabel has [] trivial hnone
    (.node tag' as' (.leaf leafTag data :: more)) xs 0 [] rfl [] (.mk none none [] []) []
  obtain ⟨ws',rest',hws',hsecond⟩ := parseLoop_down hindent hlabel' has' [] trivial hnone
    (.leaf leafTag data) more 1 ws hws rest (.mk (some tag) none [] as) [.mk none none [] []]
  obtain ⟨rest'',hthird⟩ := parseLoop_leaf hindent hleaf data 2 ws' hws' rest'
  have hopened := hfirst.trans (hsecond.trans (hthird _ _))
  have hspine : Spine [Node.mk none none [] [],.mk (some tag) none [] as,.mk (some tag') none [] as',
      newNode leafTag []] [⟨0,tag,as⟩,⟨0,tag',as'⟩,⟨0,leafTag,[]⟩] :=
    .inr ⟨_,_,rfl,rfl,⟨_,rfl,rfl,rfl⟩,.inr ⟨_,_,rfl,rfl,⟨_,rfl,rfl,rfl⟩,.inr ⟨_,[],rfl,rfl,⟨_,rfl,rfl,rfl⟩,
      .inl trivial⟩⟩⟩
  exact parseLoop_leads rest'' [newNode leafTag [],.mk (some tag') none [] as',.mk (some tag) none [] as,
    .mk none none [] []] hspine (hopened.symm.trans hr)

end Printed

end Vecoda.OpenElements

import Vecoda.TextReferences

/-!
# Tags in a printed text

Where the reader finds tags in what the printer writes: the tags of the printer
itself, and, within a text, a `<` that stands for itself before what could be
a label. Such a tag ends at the next `>`, at the latest that of the closing tag
behind the text.
-/

set_option autoImplicit false

namespace Vecoda.PrintedTags
open MessagePipe LuaText XmlSimple XmlPrinter TextReferences
open Letter

section Matching

theorem takeWhile_stop {α : Type} {p : α → Bool} {w s : List α} (hw : ∀ a ∈ w, p a = true)
    (hs : ∀ a ∈ s.head?, p a = false) : (w ++ s).takeWhile p = w := by
  rw [List.takeWhile_append_of_pos hw]
  cases s with
  | nil => simp
  | cons a s => simp [hs a rfl]

def tagText (slash : Bool) (label body : Bytes) : Bytes :=
  byte '<' :: ((if slash then [byte '/'] else []) ++ label ++ body ++ [byte '>'])

structure Label (label : Bytes) : Prop where
  nonempty : label ≠ []
  bytes : ∀ b ∈ label, isLabel b = true

theorem label_of {label : Bytes} (h : label ≠ [] ∧ label.all isLabel = true) : Label label :=
  ⟨h.1,List.all_eq_true.mp h.2⟩

structure Body (body : Bytes) : Prop where
  inside : byte '>' ∉ body
  boundary : ∀ b ∈ body.head?, isLabel b = false

theorem matchTag_eq {label body : Bytes} (hlabel : Label label) (hbody : Body body) (slash : Bool)
    (rest : Bytes) :
    matchTag (tagText slash label body ++ rest) =
      some ⟨slash,label,if body.getLast? == some (byte '/') then body.dropLast else body,
        body.getLast? == some (byte '/'),rest⟩ := by
  obtain ⟨after,hafter⟩ : ∃ after, after = body ++ byte '>' :: rest := ⟨_,rfl⟩
  have hstop : ∀ b ∈ after.head?, isLabel b = false := by
    rw [hafter]
    cases body with
    | nil =>
      rintro b hb
      cases hb
      decide
    | cons c body => exact hbody.boundary
  have hbody' : after.takeWhile (· ≠ byte '>') = body := by
    rw [hafter]
    refine takeWhile_stop (fun b hb => ?_) ?_
    · simp only [ne_eq, decide_not, Bool.not_eq_true', decide_eq_false_iff_not]
      exact fun he => hbody.inside (he ▸ hb)
    · rintro b hb
      cases hb
      decide
  have htext : tagText slash label body ++ rest =
      byte '<' :: ((if slash then [byte '/'] else []) ++ (label ++ after)) := by
    rw [hafter, tagText]
    simp
  have hslash : (((if slash then [byte '/'] else []) ++ (label ++ after)).head? == some (byte '/')) = slash := by
    cases slash with
    | true => rfl
    | false =>
      obtain ⟨c,cs,rfl⟩ := List.exists_cons_of_ne_nil hlabel.nonempty
      have hne : c ≠ byte '/' := by
        rintro rfl
        exact absurd (hlabel.bytes _ List.mem_cons_self) (by decide)
      simpa using hne
  have hdrop : ((if slash then [byte '/'] else []) ++ (label ++ after)).drop (if slash then 1 else 0) =
      label ++ after := by cases slash <;> rfl
  rw [htext, matchTag]
  simp only [hslash, hdrop, takeWhile_stop hlabel.bytes hstop, List.drop_left, hbody']
  have hlength : body.length < after.length := by
    rw [hafter, List.length_append, List.length_cons]
    omega
  have hrest : after.drop (body.length+1) = rest := by
    rw [hafter]
    simp
  rw [if_pos ⟨trivial,hlabel.nonempty,hlength⟩, hrest]

def past (s : Bytes) : Bytes := (s.dropWhile (· ≠ byte '>')).tail

theorem past_append {w : Bytes} (h : byte '>' ∉ w) (s : Bytes) : past (w ++ s) = past s := by
  rw [past, List.dropWhile_append_of_pos]
  · rfl
  · intro b hb
    simp only [ne_eq, decide_not, Bool.not_eq_true', decide_eq_false_iff_not]
    exact fun he => h (he ▸ hb)

def labelled (s : Bytes) : Bool := s.head?.any isLabel

theorem takeWhile_isLabel (s : Bytes) : s.takeWhile isLabel ≠ [] ↔ labelled s = true := by
  cases s with
  | nil => simp [labelled]
  | cons b s =>
    rw [List.takeWhile_cons]
    by_cases h : isLabel b = true
    · simp [labelled, h]
    · simp [labelled, h]

theorem isLabel_ends : isLabel (byte '>') = false := by decide

/-- The parts of what stands behind a `<`. -/
theorem tag_split (s : Bytes) : ∃ w after, s = w ++ after ∧ byte '>' ∉ w ∧
    after = (s.drop (if s.head? == some (byte '/') then 1 else 0)).drop
      ((s.drop (if s.head? == some (byte '/') then 1 else 0)).takeWhile isLabel).length := by
  obtain ⟨u,hu⟩ : ∃ u, u = s.drop (if s.head? == some (byte '/') then 1 else 0) := ⟨_,rfl⟩
  rw [← hu]
  obtain ⟨slash,hslash,hnot⟩ : ∃ slash, s = slash ++ u ∧ byte '>' ∉ slash := by
    cases hs : s.head? == some (byte '/') with
    | false => exact ⟨[],by rw [hu, hs]; rfl,List.not_mem_nil⟩
    | true =>
      cases s with
      | nil => cases hs
      | cons c s =>
        obtain rfl : c = byte '/' := by simpa using hs
        exact ⟨[byte '/'],by rw [hu, hs]; rfl,by decide⟩
  have hlabel : u.takeWhile isLabel ++ u.drop (u.takeWhile isLabel).length = u := by
    conv_rhs => rw [← List.take_append_drop (u.takeWhile isLabel).length u]
    rw [← List.prefix_iff_eq_take.mp (List.takeWhile_prefix isLabel)]
  refine ⟨slash ++ u.takeWhile isLabel,u.drop (u.takeWhile isLabel).length,?_,?_,rfl⟩
  · rw [List.append_assoc, hlabel]
    exact hslash
  · rw [List.mem_append]
    rintro (h | h)
    · exact hnot h
    · have := List.mem_takeWhile_imp h
      rw [isLabel_ends] at this
      cases this

theorem body_length {after : Bytes} (h : byte '>' ∈ after) :
    (after.takeWhile (· ≠ byte '>')).length < after.length := by
  refine lt_of_le_of_ne (List.takeWhile_prefix _).length_le (fun he => ?_)
  have hall := (List.takeWhile_prefix (· ≠ byte '>')).eq_of_length he
  have := List.mem_takeWhile_imp (hall ▸ h)
  simp at this

theorem drop_body (after : Bytes) :
    after.drop ((after.takeWhile (· ≠ byte '>')).length+1) = (after.dropWhile (· ≠ byte '>')).tail := by
  have hsplit := @List.takeWhile_append_dropWhile _ (· ≠ byte '>') after
  conv_lhs => rw [← hsplit]
  rw [hsplit, ← List.drop_drop, ← List.drop_one]
  congr 1
  conv_lhs => rw [← hsplit]
  rw [List.drop_left']
  rw [hsplit]

theorem matchTag_past {b : UInt8} {s : Bytes} {t : Tag} (h : matchTag (b::s) = some t) : t.rest = past s := by
  obtain ⟨w,after,hs,hw,hafter⟩ := tag_split s
  rw [matchTag, Option.ite_none_right_eq_some] at h
  obtain ⟨-,h⟩ := h
  rw [← hafter] at h
  rw [← Option.some.inj h, hs, past_append hw]
  exact drop_body after

theorem matchTag_isSome {b : UInt8} {s : Bytes} (h : byte '>' ∈ s) :
    (matchTag (b::s)).isSome = true ↔
      b = byte '<' ∧ labelled (s.drop (if s.head? == some (byte '/') then 1 else 0)) = true := by
  obtain ⟨w,after,hs,hw,hafter⟩ := tag_split s
  have hend : byte '>' ∈ after := (List.mem_append.mp (hs ▸ h)).resolve_left hw
  have hlength := body_length hend
  rw [matchTag, ← hafter, ← takeWhile_isLabel]
  generalize s.drop (if s.head? == some (byte '/') then 1 else 0) = u
  by_cases hcond : b = byte '<' ∧ u.takeWhile isLabel ≠ []
  · rw [if_pos ⟨hcond.1,hcond.2,hlength⟩]
    exact ⟨fun _ => hcond,fun _ => rfl⟩
  · rw [if_neg (fun hall => hcond ⟨hall.1,hall.2.1⟩)]
    exact ⟨fun hnone => (by cases hnone),fun hboth => absurd hboth hcond⟩

end Matching

section Finding

theorem findTag_append {w : Bytes} (h : byte '<' ∉ w) (s : Bytes) :
    findTag (w ++ s) = (findTag s).map (fun p => (w ++ p.1,p.2)) := by
  induction w with
  | nil => cases hs : findTag s <;> simp [hs]
  | cons b w ih =>
    have hnone : matchTag (b::(w ++ s)) = none := by
      rw [matchTag, if_neg]
      rintro ⟨rfl,-⟩
      exact h List.mem_cons_self
    rw [List.cons_append, findTag, hnone, ih (fun hw => h (List.mem_cons_of_mem _ hw)), Option.map_map]
    rfl

theorem findTag_matched {s : Bytes} {t : Tag} (h : matchTag s = some t) : findTag s = some ([],t) := by
  cases s with
  | nil => cases h
  | cons b s => rw [findTag, h]

theorem findTag_skipped {b : UInt8} {s : Bytes} (h : matchTag (b::s) = none) :
    findTag (b::s) = (findTag s).map (fun p => (b::p.1,p.2)) := by
  rw [findTag, h]

def labelNext : List Letter → Bool
  | raw b :: _ => isLabel b
  | _ => false

def tagNext : List Letter → Bool
  | raw b :: X => if b = byte '/' then labelNext X else isLabel b
  | _ => false

/-- A `<` stands for itself where a tag could begin. -/
def forged : List Letter → Bool
  | [] => false
  | a::X => (a.view == some (byte '<') && tagNext X) || forged X

structure Ended (e : Bytes) : Prop where
  opened : ∃ after, e = byte '<' :: after
  closed : byte '>' ∈ e

theorem written_inside (c : Special) (b : UInt8) (h : b ∈ (coded c).written) :
    b ≠ byte '<' ∧ b ≠ byte '>' := by
  rcases List.mem_cons.mp h with rfl | h
  · decide
  · rcases List.mem_append.mp h with h | h
    · have hname := (name_bytes c).1 b h
      constructor
      · rintro rfl
        revert hname
        decide
      · rintro rfl
        revert hname
        decide
    · rw [List.mem_singleton.mp h]
      decide

variable {e : Bytes}

theorem labelled_render (he : Ended e) (X : List Letter) : labelled (render X ++ e) = labelNext X := by
  obtain ⟨after,rfl⟩ := he.opened
  cases X with
  | nil => rfl
  | cons a X => cases a <;> rfl

theorem tag_render (he : Ended e) (X : List Letter) :
    labelled ((render X ++ e).drop (if (render X ++ e).head? == some (byte '/') then 1 else 0)) = tagNext X := by
  cases X with
  | nil =>
    obtain ⟨after,rfl⟩ := he.opened
    rfl
  | cons a X =>
    cases a with
    | coded c => rfl
    | raw b =>
      have hhead : (render (raw b :: X) ++ e).head? = some b := rfl
      rw [hhead, tagNext]
      by_cases hb : b = byte '/'
      · subst hb
        rw [if_pos rfl, ← labelled_render he X]
        rfl
      · rw [if_neg hb]
        have : (some b == some (byte '/')) = false := by simpa using hb
        rw [this]
        rfl

theorem matchTag_render (he : Ended e) (a : Letter) (X : List Letter) (b : UInt8) (ha : a.view = some b) :
    (matchTag (b :: (render X ++ e))).isSome = (a.view == some (byte '<') && tagNext X) := by
  have hend : byte '>' ∈ render X ++ e := List.mem_append_right _ he.closed
  rw [Bool.eq_iff_iff, matchTag_isSome hend, tag_render he, ha]
  simp

theorem past_render (X : List Letter) (e : Bytes) :
    (∃ Y, Y.length < X.length ∧ past (render X ++ e) = render Y ++ e) ∨ past (render X ++ e) = past e := by
  induction X with
  | nil => exact .inr rfl
  | cons a X ih =>
    have hskip (h : byte '>' ∉ a.written) :
        past (render (a::X) ++ e) = past (render X ++ e) := by
      rw [render_cons, List.append_assoc, past_append h]
    have hgo (h : byte '>' ∉ a.written) : (∃ Y, Y.length < (a::X).length ∧
        past (render (a::X) ++ e) = render Y ++ e) ∨ past (render (a::X) ++ e) = past e := by
      rw [hskip h]
      rcases ih with ⟨Y,hlength,hpast⟩ | hpast
      · exact .inl ⟨Y,hlength.trans (Nat.lt_succ_self _),hpast⟩
      · exact .inr hpast
    cases a with
    | coded c => exact hgo (fun h => (written_inside c _ h).2 rfl)
    | raw b =>
      by_cases hb : b = byte '>'
      · subst hb
        exact .inl ⟨X,Nat.lt_succ_self _,rfl⟩
      · exact hgo (fun h => hb (List.mem_singleton.mp h).symm)

/-- In a text where no tag could begin, the next tag is what ends it. -/
theorem findTag_text (he : Ended e) (X : List Letter) (h : forged X = false) :
    findTag (render X ++ e) = (findTag e).map (fun p => (render X ++ p.1,p.2)) := by
  induction X with
  | nil => cases hs : findTag e <;> simp [hs]
  | cons a X ih =>
    obtain ⟨hfirst,hrest⟩ := Bool.or_eq_false_iff.mp h
    cases a with
    | coded c =>
      rw [render_cons, List.append_assoc, findTag_append (fun hc => (written_inside c _ hc).1 rfl), ih hrest,
        Option.map_map]
      congr 1
      funext p
      simp
    | raw b =>
      have hnone : matchTag (b :: (render X ++ e)) = none := by
        rw [← Option.not_isSome_iff_eq_none, matchTag_render he (raw b) X b rfl, hfirst]
        exact Bool.false_ne_true
      have hskip := findTag_skipped hnone
      rw [ih hrest, Option.map_map] at hskip
      exact hskip

/-- Otherwise it begins in the text. -/
theorem findTag_forged (he : Ended e) (X : List Letter) (h : forged X = true) :
    ∃ P S t, X = P ++ S ∧ findTag (render X ++ e) = some (render P,t) ∧
      ((∃ Y, Y.length < S.length ∧ t.rest = render Y ++ e) ∨ S ≠ [] ∧ t.rest = past e) := by
  induction X with
  | nil => cases h
  | cons a X ih =>
    have hgo (hX : forged X = true)
        (hskip : findTag (render (a::X) ++ e) = (findTag (render X ++ e)).map
          (fun p => (a.written ++ p.1,p.2))) :
        ∃ P S t, a::X = P ++ S ∧ findTag (render (a::X) ++ e) = some (render P,t) ∧
          ((∃ Y, Y.length < S.length ∧ t.rest = render Y ++ e) ∨ S ≠ [] ∧ t.rest = past e) := by
      obtain ⟨P,S,t,rfl,hfind,hrest⟩ := ih hX
      refine ⟨a::P,S,t,rfl,?_,hrest⟩
      rw [hskip, hfind]
      rfl
    cases a with
    | coded c =>
      apply hgo h
      rw [render_cons, List.append_assoc, findTag_append (fun hc => (written_inside c _ hc).1 rfl)]
    | raw b =>
      cases hmatch : matchTag (b :: (render X ++ e)) with
      | some t =>
        refine ⟨[],raw b :: X,t,rfl,findTag_matched hmatch,?_⟩
        rw [matchTag_past hmatch]
        rcases past_render X e with ⟨Y,hlength,hpast⟩ | hpast
        · exact .inl ⟨Y,hlength.trans (Nat.lt_succ_self _),hpast⟩
        · exact .inr ⟨List.cons_ne_nil _ _,hpast⟩
      | none =>
        have hfirst := matchTag_render he (raw b) X b rfl
        rw [hmatch] at hfirst
        have hX : forged X = true := by
          rw [forged, ← hfirst] at h
          exact h
        exact hgo hX (findTag_skipped hmatch)

end Finding

end Vecoda.PrintedTags

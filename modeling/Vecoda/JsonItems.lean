import Vecoda.JsonSpelling

/-!
# One value of json.lua

What `decode` takes from the front of a text: a value of the grammar, or the
bracket of a container that is not empty. What `decode_item` takes before it is
the label that the grammar puts there.
-/

set_option autoImplicit false

namespace Vecoda.JsonItems
open MessagePipe LuaText JsonGrammar JsonStrings JsonDecode JsonScanning JsonSpelling

section Leaves

variable {N : Type} (nums : Numbers N)

theorem not_blank_of_digit (b : UInt8) (h : digit b = true) : blank b = false := by
  cases hb : blank b with
  | false => rfl
  | true =>
    have := (separator_cases b (by simp [separator, hb])).1
    rw [h] at this
    cases this

theorem decodeNext_head {w : Bytes} (hw : Blank w) (b : UInt8) (hb : blank b = false) (bs : Bytes) :
    decodeNext nums (w ++ b::bs) = decodeMap nums b (b::bs) := by
  have hd : (w ++ b::bs).dropWhile blank = b::bs := dropWhile_run hw (by simpa using hb)
  rw [decodeNext, hd]

theorem decodeLiteral_sound (word : String) (v u : Value N) (s rest : Bytes)
    (h : decodeLiteral word v s = .ok (.value u rest)) : s = ascii word ++ rest ∧ u = v := by
  rw [decodeLiteral] at h
  split at h
  · next ht =>
    injection h with h
    injection h with hv hr
    refine ⟨?_,hv.symm⟩
    rw [← hr]
    conv_lhs => rw [← List.take_append_drop (ascii word).length s, ht]
  · cases h

theorem decodeLiteral_word (word : String) (v : Value N) (rest : Bytes) :
    decodeLiteral word v (ascii word ++ rest) = .ok (.value v rest) := by
  rw [decodeLiteral, List.take_left, if_pos rfl, List.drop_left]

inductive Taken (s : Bytes) : Decoded N → Prop
  | value (bare : Bool) (t rest : Bytes) (v : Value N) (hs : s = t ++ rest) (hne : t ≠ [])
      (ht : Denotes nums.meaning bare t v) (hf : bare = true → rest.head?.any separator = true) :
      Taken s (.value v rest)
  | opened (kind : Kind) (rest : Bytes) (hs : s = kind.opening::rest) : Taken s (.opened kind rest)

variable {nums}

theorem taken_literal (word : String) (v : Value N) (s : Bytes) (d : Decoded N)
    (hv : Denotes nums.meaning false (ascii word) v) (hne : ascii word ≠ [])
    (h : decodeLiteral word v s = .ok d) : Taken nums s d := by
  cases d with
  | value u rest =>
    obtain ⟨hs,rfl⟩ := decodeLiteral_sound word v u s rest h
    exact .value false _ rest u hs hne hv nofun
  | opened kind rest =>
    rw [decodeLiteral] at h
    split at h <;> cases h

theorem taken_container (kind : Kind) (bs : Bytes) :
    Taken nums (kind.opening::bs) (decodeContainer kind (kind.opening::bs)) := by
  rw [decodeContainer, List.tail_cons]
  split
  · next h =>
    obtain ⟨w,hw,hbs⟩ := exists_blank bs
    obtain ⟨rest,hr⟩ := List.head?_eq_some_iff.mp h
    rw [hr] at hbs ⊢
    refine .value false _ rest _ ?_ (List.cons_ne_nil _ _) (.empty kind w hw) nofun
    rw [hbs]
    simp
  · exact .opened kind bs rfl

theorem numeral_digit (bare : Bool) (t : Bytes) (h : Numeral bare t) :
    ∃ b bs, t = b::bs ∧ digit b = true := by
  have hwhole (whole more : Bytes) (hw : Whole whole) :
      ∃ b bs, whole ++ more = b::bs ∧ digit b = true := by
    cases hw with
    | zero => exact ⟨code '0',more,rfl,by decide⟩
    | other d ds hd h0 hds => exact ⟨d,ds ++ more,rfl,hd⟩
  cases h with
  | plain whole fraction hw hf => exact hwhole whole fraction hw
  | exponential whole fraction e hw hf he =>
    rw [List.append_assoc]
    exact hwhole whole (fraction ++ e) hw

theorem taken_number (s num rest : Bytes)
    (h : ∃ bare, Numeral bare num ∧ s = num ++ rest ∧
      (bare = true → rest.head?.any separator = true)) :
    Taken nums s (.value (.number (nums.tonumber num)) rest) := by
  obtain ⟨bare,hn,hs,hf⟩ := h
  obtain ⟨b,bs,hb,-⟩ := numeral_digit bare num hn
  exact .value bare num rest _ hs (by rw [hb]; exact List.cons_ne_nil b bs) (.number bare num hn) hf

theorem taken_negative (s num rest : Bytes)
    (h : ∃ bare, Numeral bare num ∧ s = num ++ rest ∧
      (bare = true → rest.head?.any separator = true)) :
    Taken nums (code '-'::s) (.value (.number (nums.neg (nums.tonumber num))) rest) := by
  obtain ⟨bare,hn,hs,hf⟩ := h
  refine .value bare (code '-'::num) rest _ ?_ (List.cons_ne_nil _ _) (.negative bare num hn) hf
  rw [hs, List.cons_append]

theorem digit_of_range (c : UInt8) (h : code '0' < c ∧ c < 58) : digit c = true ∧ c ≠ code '0' := by
  obtain ⟨hlo,hhi⟩ := h
  simp only [UInt8.lt_iff_toNat_lt] at hlo hhi
  have h0 : (code '0').toNat = 48 := rfl
  have h9 : (code '9').toNat = 57 := rfl
  have h58 : (58 : UInt8).toNat = 58 := rfl
  constructor
  · simp only [digit, Bool.and_eq_true, decide_eq_true_eq, UInt8.le_iff_toNat_le]
    omega
  · rintro rfl
    omega

theorem decodeNumberNegative_sound (bs rest : Bytes) (n : N)
    (h : decodeNumberNegative nums (code '-'::bs) = .ok (n,rest)) :
    Taken nums (code '-'::bs) (.value (.number n) rest) := by
  rw [decodeNumberNegative, List.tail_cons] at h
  cases bs with
  | nil => cases h
  | cons c cs =>
    by_cases hz : c = code '0'
    · subst hz
      simp only [if_true] at h
      obtain ⟨⟨num,tail⟩,hr,he⟩ := map_ok h
      injection he with hn ht
      subst hn ht
      exact taken_negative _ _ _ (decodeNumberZero_sound cs num tail hr)
    · by_cases hc : code '0' < c ∧ c < 58
      · simp only [hz, hc, and_self, if_true, if_false] at h
        obtain ⟨⟨num,tail⟩,hr,he⟩ := map_ok h
        injection he with hn ht
        subst hn ht
        exact taken_negative _ _ _ (decodeNumber_sound c cs num tail (digit_of_range c hc).1 hz hr)
      · simp only [hz, hc, if_false] at h
        cases h

/-- One dispatch takes a value, or the bracket of a container that is not empty. -/
theorem decodeMap_sound (b : UInt8) (bs : Bytes) (d : Decoded N)
    (h : decodeMap nums b (b::bs) = .ok d) : Taken nums (b::bs) d := by
  rw [decodeMap] at h
  by_cases hq : b = code '"'
  · rw [if_pos hq] at h
    obtain ⟨⟨v,rest⟩,hr,rfl⟩ := map_ok h
    subst hq
    obtain ⟨body,hb,hs,rfl⟩ := decodeString_sound bs v rest hr
    have hv := Denotes.string (m := nums.meaning) body hb
    rw [meaning_string nums hb] at hv
    exact .value false _ rest _ hs (by simp [quoted]) hv nofun
  rw [if_neg hq] at h
  by_cases hz : b = code '0'
  · rw [if_pos hz] at h
    obtain ⟨⟨num,rest⟩,hr,rfl⟩ := map_ok h
    subst hz
    exact taken_number _ _ _ (decodeNumberZero_sound bs num rest hr)
  rw [if_neg hz] at h
  by_cases hd : digit b = true
  · rw [if_pos hd] at h
    obtain ⟨⟨num,rest⟩,hr,rfl⟩ := map_ok h
    exact taken_number _ _ _ (decodeNumber_sound b bs num rest hd hz hr)
  rw [if_neg hd] at h
  by_cases hm : b = code '-'
  · rw [if_pos hm] at h
    obtain ⟨⟨n,rest⟩,hr,rfl⟩ := map_ok h
    subst hm
    exact decodeNumberNegative_sound bs rest n hr
  rw [if_neg hm] at h
  by_cases ht : b = code 't'
  · rw [if_pos ht] at h
    exact taken_literal "true" _ _ d .holds (by decide) h
  rw [if_neg ht] at h
  by_cases hf : b = code 'f'
  · rw [if_pos hf] at h
    exact taken_literal "false" _ _ d .fails (by decide) h
  rw [if_neg hf] at h
  by_cases hn : b = code 'n'
  · rw [if_pos hn] at h
    exact taken_literal "null" _ _ d .null (by decide) h
  rw [if_neg hn] at h
  by_cases ha : b = code '['
  · rw [if_pos ha] at h
    injection h with h
    rw [← h, ha]
    exact taken_container .array bs
  rw [if_neg ha] at h
  by_cases ho : b = code '\x7b'
  · rw [if_pos ho] at h
    injection h with h
    rw [← h, ho]
    exact taken_container .object bs
  rw [if_neg ho] at h
  cases h

theorem decodeNext_sound (s : Bytes) (d : Decoded N) (h : decodeNext nums s = .ok d) :
    ∃ w s', Blank w ∧ s = w ++ s' ∧ Taken nums s' d := by
  obtain ⟨w,hw,hs⟩ := exists_blank s
  rw [decodeNext] at h
  split at h
  · cases h
  · next b bs he =>
    exact ⟨w,b::bs,hw,by rw [← he]; exact hs,decodeMap_sound b bs d h⟩

variable (nums)

theorem decodeMap_digit (b : UInt8) (bs : Bytes) (hd : digit b = true) (h0 : b ≠ code '0') :
    decodeMap nums b (b::bs) =
      (decodeNumber (b::bs)).map (fun r => .value (.number (nums.tonumber r.1)) r.2) := by
  have hq : b ≠ code '"' := by
    rintro rfl
    exact absurd hd (by decide)
  rw [decodeMap, if_neg hq, if_neg h0, if_pos hd]

theorem decodeNext_number (bare : Bool) (w t tail : Bytes) (hw : Blank w) (h : Numeral bare t)
    (hf : Follows bare tail) :
    decodeNext nums (w ++ t ++ tail) = .ok (.value (.number (nums.tonumber t)) tail) := by
  rw [List.append_assoc]
  rcases numeral_complete bare t tail h hf with ⟨bs,ht,hn⟩ | ⟨b,bs,ht,hd,h0,hn⟩
  · rw [ht] at hn ⊢
    rw [decodeNext_head nums hw _ (by decide), decodeMap, if_neg (by decide), if_pos rfl, hn]
    rfl
  · rw [ht] at hn ⊢
    rw [decodeNext_head nums hw b (not_blank_of_digit b hd), decodeMap_digit nums b bs hd h0, hn]
    rfl

theorem range_of_digit (b : UInt8) (hd : digit b = true) (h0 : b ≠ code '0') : code '0' < b ∧ b < 58 := by
  have hn : b.toNat ≠ (code '0').toNat := fun he => h0 (UInt8.toNat_inj.mp he)
  simp only [digit, Bool.and_eq_true, decide_eq_true_eq, UInt8.le_iff_toNat_le] at hd
  simp only [UInt8.lt_iff_toNat_lt]
  have h0 : (code '0').toNat = 48 := rfl
  have h9 : (code '9').toNat = 57 := rfl
  have h58 : (58 : UInt8).toNat = 58 := rfl
  omega

theorem decodeNext_negative (bare : Bool) (w t tail : Bytes) (hw : Blank w) (h : Numeral bare t)
    (hf : Follows bare tail) :
    decodeNext nums (w ++ code '-'::t ++ tail) =
      .ok (.value (.number (nums.neg (nums.tonumber t))) tail) := by
  rw [List.append_assoc, List.cons_append, decodeNext_head nums hw _ (by decide), decodeMap,
    if_neg (by decide), if_neg (by decide), if_neg (by decide), if_pos rfl, decodeNumberNegative,
    List.tail_cons]
  rcases numeral_complete bare t tail h hf with ⟨bs,ht,hn⟩ | ⟨b,bs,ht,hd,h0,hn⟩
  · rw [ht] at hn ⊢
    simp only [if_true, hn]
    rfl
  · rw [ht] at hn ⊢
    simp only [h0, range_of_digit b hd h0, and_self, if_false, if_true, hn]
    rfl

theorem decodeNext_string (w body tail : Bytes) (hw : Blank w) (hb : Body body) :
    decodeNext nums (w ++ quoted body ++ tail) =
      .ok (.value (.string (nums.meaning.string body)) tail) := by
  have hd := decodeString_quoted body tail hb
  rw [List.append_assoc, meaning_string nums hb]
  change decodeNext nums (w ++ code '"'::(body ++ [code '"'] ++ tail)) = _
  rw [decodeNext_head nums hw _ (by decide), decodeMap, if_pos rfl]
  change Except.map _ (decodeString (quoted body ++ tail)) = _
  rw [hd]
  rfl

theorem decodeNext_literal (c : Char) (word : String) (v : Value N) (w tail cs : Bytes) (hw : Blank w)
    (hword : ascii word = code c::cs) (hc : blank (code c) = false)
    (hmap : ∀ s, decodeMap nums (code c) s = decodeLiteral word v s) :
    decodeNext nums (w ++ ascii word ++ tail) = .ok (.value v tail) := by
  have hl := decodeLiteral_word word v tail
  rw [List.append_assoc]
  rw [hword, List.cons_append] at hl ⊢
  rw [decodeNext_head nums hw _ hc, hmap, hl]

theorem decodeMap_opening (kind : Kind) (s : Bytes) :
    decodeMap nums kind.opening s = .ok (decodeContainer kind s) := by
  cases kind <;> rfl

theorem decodeNext_opening (kind : Kind) (w bs : Bytes) (hw : Blank w) :
    decodeNext nums (w ++ kind.opening::bs) = .ok (decodeContainer kind (kind.opening::bs)) := by
  have hb : blank kind.opening = false := by cases kind <;> decide
  rw [decodeNext_head nums hw _ hb, decodeMap_opening]

theorem closing_not_blank (kind : Kind) : blank kind.closing = false := by cases kind <;> decide

theorem closing_separator (kind : Kind) : separator kind.closing = true := by cases kind <;> decide

theorem decodeContainer_empty (kind : Kind) (w tail : Bytes) (hw : Blank w) :
    decodeContainer kind (kind.opening::(w ++ kind.closing::tail)) =
      .value (kind.empty : Container N).value tail := by
  have hd : (w ++ kind.closing::tail).dropWhile blank = kind.closing::tail :=
    dropWhile_run hw (by simpa using closing_not_blank kind)
  rw [decodeContainer, List.tail_cons, hd]
  simp

end Leaves

section Slots

variable {N : Type} (nums : Numbers N)

theorem decodeSlot_sound (c : Container N) (s rest : Bytes) (slot : Slot N)
    (h : decodeSlot c s = .ok (slot,rest)) :
    ∃ l, s = l ++ rest ∧ Label nums.meaning c l slot := by
  cases c with
  | array items =>
    injection h with h
    injection h with hs hr
    subst hs hr
    exact ⟨[],rfl,.item items⟩
  | object entries =>
    rw [decodeSlot] at h
    cases hq : expectByte (code '"') s with
    | error e =>
      rw [hq] at h
      cases h
    | ok s₁ =>
      obtain ⟨w,rest₁,hw,hs,hs₁⟩ := expectByte_sound _ s s₁ hq
      rw [hq] at h
      cases hk : decodeString s₁ with
      | error e =>
        simp only [bind, Except.bind, hk] at h
        cases h
      | ok r =>
        obtain ⟨key,s₂⟩ := r
        rw [hs₁] at hk
        obtain ⟨body,hb,hs₂,hv⟩ := decodeString_sound rest₁ key s₂ hk
        rw [← hs₁] at hk hs₂
        cases hc : expectByte (code ':') s₂ with
        | error e =>
          simp only [bind, Except.bind, hk, hc] at h
          cases h
        | ok s₃ =>
          obtain ⟨w',rest₃,hw',hs₃,hc₃⟩ := expectByte_sound _ s₂ s₃ hc
          simp only [bind, Except.bind, hk, hc] at h
          injection h with h
          injection h with hslot hr
          subst hslot hr
          obtain rfl : key = nums.meaning.string body := hv.trans (meaning_string nums hb).symm
          refine ⟨_,?_,.field entries w body w' hw hb hw'⟩
          rw [hs, hs₂, hs₃, hc₃]
          simp

theorem decodeSlot_label (c : Container N) (l rest : Bytes) (slot : Slot N)
    (h : Label nums.meaning c l slot) : decodeSlot c (l ++ rest) = .ok (slot,rest) := by
  cases h with
  | item items => rfl
  | field entries w body w' hw hb hw' =>
    have hq : expectByte (code '"') (w ++ quoted body ++ w' ++ [code ':'] ++ rest) =
        .ok (quoted body ++ (w' ++ code ':'::rest)) := by
      have := expectByte_blank hw (code '"') (by decide) (body ++ [code '"'] ++ (w' ++ code ':'::rest))
      simpa [quoted] using this
    have hk := decodeString_quoted body (w' ++ code ':'::rest) hb
    have hc := expectByte_blank hw' (code ':') (by decide) rest
    rw [← meaning_string nums hb] at hk
    rw [decodeSlot, hq]
    simp only [bind, Except.bind, hk, hc]
    rfl

end Slots

end Vecoda.JsonItems

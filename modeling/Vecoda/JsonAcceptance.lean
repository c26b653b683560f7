import Vecoda.JsonItems

/-!
# The texts that json.lua decodes

The loop of `json.decode` accepts exactly the texts of the grammar and returns
the value they denote, with one exception: at the end of the text it does not
accept a number with an exponent, since it looks for the byte behind it.
-/

set_option autoImplicit false

namespace Vecoda.JsonAcceptance
open MessagePipe LuaText JsonGrammar JsonStrings JsonDecode JsonScanning JsonItems JsonSpelling

section Loop

variable {N : Type} (nums : Numbers N)

theorem taken_shorter {s : Bytes} {d : Decoded N} (h : Taken nums s d) :
    (∀ v rest, d = .value v rest → rest.length < s.length) ∧
      ∀ kind rest, d = .opened kind rest → rest.length < s.length := by
  cases h with
  | value bare t rest v hs hne ht hf =>
    refine ⟨fun u r hd => ?_,nofun⟩
    injection hd with _ hr
    have := List.length_pos_iff.mpr hne
    rw [← hr, hs, List.length_append]
    omega
  | opened kind rest hs =>
    refine ⟨nofun,fun k r hd => ?_⟩
    injection hd with _ hr
    rw [← hr, hs, List.length_cons]
    omega

theorem decodeItem_shorter (m m' : Machine N) (h : decodeItem nums m = .ok (.more m')) :
    m'.rest.length < m.rest.length := by
  rw [decodeItem] at h
  cases hslot : decodeSlot m.top m.rest with
  | error e =>
    rw [hslot] at h
    cases h
  | ok r =>
    obtain ⟨slot,s⟩ := r
    obtain ⟨l,hl,-⟩ := decodeSlot_sound nums m.top m.rest s slot hslot
    have hle : s.length ≤ m.rest.length := by
      rw [hl, List.length_append]
      omega
    rw [hslot] at h
    cases hd : decodeNext nums s with
    | error e =>
      simp only [bind, Except.bind, hd] at h
      cases h
    | ok d =>
      obtain ⟨w,s',-,hs,ht⟩ := decodeNext_sound s d hd
      have hle' : s'.length ≤ s.length := by
        rw [hs, List.length_append]
        omega
      simp only [bind, Except.bind, hd] at h
      cases d with
      | value v rest =>
        have hrest := (taken_shorter nums ht).1 v rest rfl
        have := decodeEnd_shorter _ _ _ _ h
        omega
      | opened kind rest =>
        have hrest := (taken_shorter nums ht).2 kind rest rfl
        injection h with h
        injection h with h
        rw [← h]
        exact lt_of_lt_of_le hrest (hle'.trans hle)

def decodeItems (m : Machine N) : Decode (Value N × Bytes) :=
  match _h : decodeItem nums m with
  | .error e => .error e
  | .ok (.done v rest) => .ok (v,rest)
  | .ok (.more m') => decodeItems m'
termination_by m.rest.length
decreasing_by exact decodeItem_shorter nums m m' _h

def decodeText (s : Bytes) : Decode (Value N) := do
  let (v,rest) ← match ← decodeNext nums s with
    | .value v rest => .ok (v,rest)
    | .opened kind rest => decodeItems nums ⟨kind.empty,[],rest⟩
  if rest.any (fun b => !blank b) then
    decodeError (text "trailing garbage '" ++ rest ++ text "'") rest
  else .ok v

end Loop

section Errors

def newline (b : UInt8) : Bool := b = code '\n' || b = code '\r'

/-- The bytes up to the end of the first line: two different line ends are one. -/
def lineWidth (s : Bytes) : Option ℕ :=
  match s.dropWhile (fun b => !newline b) with
  | [] => none
  | b::bs =>
    let pair := bs.head?.any (fun c => newline c && c ≠ b)
    some (s.length - bs.length + if pair then 1 else 0)

theorem lineWidth_pos (s : Bytes) (n : ℕ) (h : lineWidth s = some n) : 0 < n ∧ 0 < s.length := by
  rw [lineWidth] at h
  have hs := dropWhile_le (fun b => !newline b) s
  split at h
  · cases h
  · next b bs he =>
    rw [he, List.length_cons] at hs
    injection h with h
    omega

/-- `find_line`, from a line on whose first byte is `offset` bytes before `statusPos`. -/
def findLine (line offset : ℕ) (s : Bytes) : ℕ × ℕ :=
  match _h : lineWidth s with
  | none => (line,offset + 1)
  | some width =>
    if offset < width then (line,offset + 1)
    else findLine (line + 1) (offset - width) (s.drop width)
termination_by s.length
decreasing_by
  have := lineWidth_pos s width _h
  rw [List.length_drop]
  omega

def errorText (s : Bytes) (e : Failure) : Bytes :=
  let (line,col) := findLine 1 ((s.length : ℤ) - e.left).toNat s
  text "ERROR: " ++ e.message ++ text " at line " ++ Framing.decimal line ++ text " col " ++
    Framing.decimal col

def decode {N : Type} (nums : Numbers N) (s : Bytes) : Except Bytes (Value N) :=
  (decodeText nums s).mapError (errorText s)

end Errors

section Runs

variable {N : Type} (nums : Numbers N)

def settle (c : Container N) (below : List (Slot N)) (s : Bytes) : Decode (Value N × Bytes) :=
  match decodeEnd c below s with
  | .error e => .error e
  | .ok (.done v rest) => .ok (v,rest)
  | .ok (.more m) => decodeItems nums m

def after (v : Value N) (rest : Bytes) : List (Slot N) → Decode (Value N × Bytes)
  | [] => .ok (v,rest)
  | slot::below => settle nums (slot.fill v) below rest

def parse (below : List (Slot N)) (s : Bytes) : Decode (Value N × Bytes) :=
  match decodeNext nums s with
  | .error e => .error e
  | .ok (.value v rest) => after nums v rest below
  | .ok (.opened kind rest) => decodeItems nums ⟨kind.empty,below,rest⟩

theorem settle_comma {c : Container N} {below : List (Slot N)} {s rest : Bytes}
    (h : s.dropWhile blank = code ','::rest) : settle nums c below s = decodeItems nums ⟨c,below,rest⟩ := by
  rw [settle, decodeEnd.eq_def]
  simp only [h]
  rfl

theorem settle_closing {c : Container N} {below : List (Slot N)} {s rest : Bytes}
    (h : s.dropWhile blank = c.kind.closing::rest) :
    settle nums c below s = after nums c.value rest below := by
  have hcomma : c.kind.closing ≠ code ',' := by cases c.kind <;> decide
  rw [settle, decodeEnd.eq_def, h]
  simp only [hcomma, ne_eq, not_true_eq_false, if_false]
  cases below <;> rfl

theorem settle_sound (c : Container N) (below : List (Slot N)) (s : Bytes) (res : Value N × Bytes)
    (h : settle nums c below s = .ok res) :
    ∃ w rest, Blank w ∧
      ((s = w ++ code ','::rest ∧ decodeItems nums ⟨c,below,rest⟩ = .ok res) ∨
        (s = w ++ c.kind.closing::rest ∧ after nums c.value rest below = .ok res)) := by
  obtain ⟨w,hw,hs⟩ := exists_blank s
  cases hd : s.dropWhile blank with
  | nil =>
    rw [settle, decodeEnd.eq_def, hd] at h
    cases h
  | cons b rest =>
    rw [hd] at hs
    by_cases hc : b = code ','
    · subst hc
      rw [settle_comma nums hd] at h
      exact ⟨w,rest,hw,.inl ⟨hs,h⟩⟩
    · by_cases hk : b = c.kind.closing
      · subst hk
        rw [settle_closing nums hd] at h
        exact ⟨w,rest,hw,.inr ⟨hs,h⟩⟩
      · rw [settle, decodeEnd.eq_def, hd] at h
        simp only [hc, hk, ne_eq, not_false_eq_true, if_false, if_true, decodeError] at h
        cases h

def proceed : Outcome N → Decode (Value N × Bytes)
  | .done v rest => .ok (v,rest)
  | .more m => decodeItems nums m

theorem decodeItems_eq (m : Machine N) : decodeItems nums m = (decodeItem nums m).bind (proceed nums) := by
  rw [decodeItems.eq_def]
  split
  · next e he => rw [he]; rfl
  · next v rest he => rw [he]; rfl
  · next m' he => rw [he]; rfl

theorem decodeItems_slot (c : Container N) (below : List (Slot N)) (s s' : Bytes) (slot : Slot N)
    (h : decodeSlot c s = .ok (slot,s')) :
    decodeItems nums ⟨c,below,s⟩ = parse nums (slot::below) s' := by
  have hsettle (v : Value N) (rest : Bytes) :
      (decodeEnd (slot.fill v) below rest).bind (proceed nums) = after nums v rest (slot::below) := by
    rw [after, settle]
    cases decodeEnd (slot.fill v) below rest with
    | error e => rfl
    | ok o => cases o <;> rfl
  rw [decodeItems_eq, decodeItem, h, parse]
  cases hd : decodeNext nums s' with
  | error e => simp only [bind, Except.bind, hd]
  | ok d =>
    cases d with
    | value v rest =>
      simp only [bind, Except.bind, hd]
      exact hsettle v rest
    | opened kind rest =>
      simp only [bind, Except.bind, hd]
      rfl

theorem decodeItems_sound (c : Container N) (below : List (Slot N)) (s : Bytes) (res : Value N × Bytes)
    (h : decodeItems nums ⟨c,below,s⟩ = .ok res) :
    ∃ l s' slot, s = l ++ s' ∧ Label nums.meaning c l slot ∧
      parse nums (slot::below) s' = .ok res := by
  cases hslot : decodeSlot c s with
  | error e =>
    have hitem : decodeItem nums ⟨c,below,s⟩ = .error e := by
      rw [decodeItem, hslot]
      rfl
    rw [decodeItems_eq, hitem] at h
    cases h
  | ok r =>
    obtain ⟨slot,s'⟩ := r
    obtain ⟨l,hs,hl⟩ := decodeSlot_sound nums c s s' slot hslot
    rw [decodeItems_slot nums c below s s' slot hslot] at h
    exact ⟨l,s',slot,hs,hl,h⟩

theorem contents_kind {m : Meaning N} : ∀ {c d : Container N} {t : Bytes}, Contents m c t d →
    d.kind = c.kind
  | _, _, _, .last c l w t w' slot bare v hl hw ht hw' => by
    cases hl <;> rfl
  | _, _, _, .more c d l w t w' ts slot bare v hl hw ht hw' hts => by
    rw [contents_kind hts]
    cases hl <;> rfl

def ParseSound (n : ℕ) : Prop :=
  ∀ below s res, s.length ≤ n → parse nums below s = .ok res →
    ∃ w bare t v rest, s = w ++ t ++ rest ∧ Blank w ∧ Denotes nums.meaning bare t v ∧
      (bare = true → rest.head?.any separator = true) ∧ rest.length < s.length ∧
      after nums v rest below = .ok res

def ItemsSound (n : ℕ) : Prop :=
  ∀ c below s res, s.length ≤ n → decodeItems nums ⟨c,below,s⟩ = .ok res →
    ∃ t d rest, s = t ++ c.kind.closing::rest ∧ Contents nums.meaning c t d ∧
      after nums d.value rest below = .ok res

theorem parse_sound (n : ℕ) (ih : ∀ k < n, ItemsSound nums k) : ParseSound nums n := by
  intro below s res hn h
  rw [parse] at h
  cases hd : decodeNext nums s with
  | error e =>
    rw [hd] at h
    cases h
  | ok d =>
    rw [hd] at h
    obtain ⟨w,s',hw,hs,ht⟩ := decodeNext_sound s d hd
    have hlen : s'.length ≤ s.length := by
      rw [hs, List.length_append]
      omega
    have hshort := taken_shorter nums ht
    cases ht with
    | value bare t rest v hs' hne hv hf =>
      refine ⟨w,bare,t,v,rest,?_,hw,hv,hf,lt_of_lt_of_le (hshort.1 v rest rfl) hlen,h⟩
      rw [hs, hs', List.append_assoc]
    | opened kind rest hs' =>
      have hlt := lt_of_lt_of_le (hshort.2 kind rest rfl) hlen
      obtain ⟨t,c,rest',hr,hc,ha⟩ := ih rest.length (lt_of_lt_of_le hlt hn) _ _ rest res le_rfl h
      rw [kind_empty] at hr
      refine ⟨w,false,_,c.value,rest',?_,hw,.filled kind t c hc,nofun,?_,ha⟩
      · rw [hs, hs', hr]
        simp
      · refine lt_trans ?_ hlt
        rw [hr, List.length_append, List.length_cons]
        omega

theorem items_sound (n : ℕ) (hp : ParseSound nums n) (ih : ∀ k < n, ItemsSound nums k) :
    ItemsSound nums n := by
  intro c below s res hn h
  obtain ⟨l,s',slot,hs,hl,h⟩ := decodeItems_sound nums c below s res h
  have hlen : s'.length ≤ s.length := by
    rw [hs, List.length_append]
    omega
  obtain ⟨w,bare,t,v,rest,hs',hw,ht,-,hlt,ha⟩ := hp (slot::below) s' res (hlen.trans hn) h
  obtain ⟨w',rest',hw',⟨hr,hmore⟩ | ⟨hr,hlast⟩⟩ := settle_sound nums (slot.fill v) below rest res ha
  · have hlt' : rest'.length < n := by
      rw [hr, List.length_append, List.length_cons] at hlt
      omega
    obtain ⟨ts,d,rest'',hr',hd,ha'⟩ := ih rest'.length hlt' _ below rest' res le_rfl hmore
    have hkind : (slot.fill v).kind = c.kind := by
      rw [kind_fill]
      cases hl <;> rfl
    rw [hkind] at hr'
    refine ⟨_,d,rest'',?_,.more c d l w t w' ts slot bare v hl hw ht hw' hd,ha'⟩
    rw [hs, hs', hr, hr']
    simp
  · have hkind : (slot.fill v).kind = c.kind := by
      rw [kind_fill]
      cases hl <;> rfl
    rw [hkind] at hr
    refine ⟨_,_,rest',?_,.last c l w t w' slot bare v hl hw ht hw',hlast⟩
    rw [hs, hs', hr]
    simp

theorem runs_sound (n : ℕ) : ParseSound nums n ∧ ItemsSound nums n := by
  induction n using Nat.strong_induction_on with
  | _ n ih =>
    have hp := parse_sound nums n (fun k hk => (ih k hk).2)
    exact ⟨hp,items_sound nums n hp (fun k hk => (ih k hk).2)⟩

theorem denotes_head {m : Meaning N} {bare : Bool} {t : Bytes} {v : Value N}
    (h : Denotes m bare t v) :
    ∃ b bs, t = b::bs ∧ blank b = false ∧ ∀ kind : Kind, b ≠ kind.closing := by
  have hdigit (b : UInt8) (hb : digit b = true) : ∀ kind : Kind, b ≠ kind.closing := by
    rintro kind rfl
    have := (separator_cases _ (closing_separator kind)).1
    rw [hb] at this
    cases this
  cases h with
  | null => exact ⟨code 'n',ascii "ull",rfl,by decide,fun k => by cases k <;> decide⟩
  | holds => exact ⟨code 't',ascii "rue",rfl,by decide,fun k => by cases k <;> decide⟩
  | fails => exact ⟨code 'f',ascii "alse",rfl,by decide,fun k => by cases k <;> decide⟩
  | number bare t hn =>
    obtain ⟨b,bs,rfl,hb⟩ := numeral_digit bare t hn
    exact ⟨b,bs,rfl,not_blank_of_digit b hb,hdigit b hb⟩
  | negative bare t hn => exact ⟨code '-',t,rfl,by decide,fun k => by cases k <;> decide⟩
  | string body hb => exact ⟨code '"',_,rfl,by decide,fun k => by cases k <;> decide⟩
  | empty kind w hw =>
    exact ⟨kind.opening,_,rfl,by cases kind <;> decide,fun k => by cases kind <;> cases k <;> decide⟩
  | filled kind t c hc =>
    exact ⟨kind.opening,_,rfl,by cases kind <;> decide,fun k => by cases kind <;> cases k <;> decide⟩

/-- A container that has contents is not taken for an empty one. -/
theorem contents_head {m : Meaning N} {c d : Container N} {t : Bytes} (h : Contents m c t d)
    (tail : Bytes) (kind : Kind) : ((t ++ tail).dropWhile blank).head? ≠ some kind.closing := by
  have hlabel (l w t more : Bytes) (slot : Slot N) (bare : Bool) (v : Value N) (hl : Label m c l slot)
      (hw : Blank w) (ht : Denotes m bare t v) :
      ((l ++ (w ++ (t ++ more))).dropWhile blank).head? ≠ some kind.closing := by
    cases hl with
    | item items =>
      obtain ⟨b,bs,rfl,hb,hk⟩ := denotes_head ht
      rw [List.nil_append, List.cons_append, dropWhile_run hw (by simpa using hb)]
      simpa using hk kind
    | field entries w' body w'' hw' hbody hw'' =>
      have hq : code '"' ≠ kind.closing := by cases kind <;> decide
      have : w' ++ quoted body ++ w'' ++ [code ':'] ++ (w ++ (t ++ more)) =
          w' ++ code '"'::(body ++ [code '"'] ++ w'' ++ [code ':'] ++ (w ++ (t ++ more))) := by
        simp [quoted]
      rw [this, dropWhile_run hw' (by simpa using (by decide : blank (code '"') = false))]
      simpa using hq
  cases h with
  | last c l w t w' slot bare v hl hw ht hw' =>
    simpa only [List.append_assoc] using hlabel l w t (w' ++ tail) slot bare v hl hw ht
  | more c d l w t w' ts slot bare v hl hw ht hw' hts =>
    simpa only [List.append_assoc, List.cons_append] using
      hlabel l w t (w' ++ code ','::(ts ++ tail)) slot bare v hl hw ht

theorem settle_blank {w : Bytes} (hw : Blank w) (c : Container N) (below : List (Slot N)) (b : UInt8)
    (bs : Bytes) (hb : blank b = false) :
    settle nums c below (w ++ b::bs) = settle nums c below (b::bs) := by
  have hrun : (w ++ b::bs).dropWhile blank = b::bs := dropWhile_run hw (by simpa using hb)
  have hself : (b::bs).dropWhile blank = b::bs := List.dropWhile_cons_of_neg (by simp [hb])
  rw [settle, settle, decodeEnd.eq_def, decodeEnd.eq_def _ _ (b::bs), hrun, hself]

theorem follows_separator (bare : Bool) {w : Bytes} (hw : Blank w) (b : UInt8) (bs : Bytes)
    (hb : separator b = true) : Follows bare (w ++ b::bs) := by
  cases w with
  | nil => exact .inl hb
  | cons a w =>
    have ha : blank a = true := hw a (by simp)
    exact .inl (by simp [separator, ha])

theorem parse_leaf {t w tail : Bytes} {v : Value N} (below : List (Slot N))
    (h : decodeNext nums (w ++ t ++ tail) = .ok (.value v tail)) :
    parse nums below (w ++ t ++ tail) = after nums v tail below := by
  rw [parse, h]

theorem parse_opening {kind : Kind} {c : Container N} {t : Bytes}
    (hc : Contents nums.meaning kind.empty t c) (w tail : Bytes) (below : List (Slot N)) (hw : Blank w) :
    parse nums below (w ++ (kind.opening::t ++ [kind.closing]) ++ tail) =
      decodeItems nums ⟨kind.empty,below,t ++ kind.closing::tail⟩ := by
  have ht : w ++ (kind.opening::t ++ [kind.closing]) ++ tail =
      w ++ kind.opening::(t ++ kind.closing::tail) := by simp
  rw [ht, parse, decodeNext_opening nums kind w _ hw, decodeContainer, List.tail_cons,
    if_neg (contents_head hc _ kind)]

mutual
theorem parse_complete : ∀ {bare : Bool} {t : Bytes} {v : Value N}, Denotes nums.meaning bare t v →
    ∀ (w tail : Bytes) (below : List (Slot N)), Blank w → Follows bare tail →
      parse nums below (w ++ t ++ tail) = after nums v tail below
  | _, _, _, .null, w, tail, below, hw, _ =>
    parse_leaf nums below (decodeNext_literal nums 'n' "null" .null w tail (ascii "ull") hw rfl
      (by decide) (fun _ => rfl))
  | _, _, _, .holds, w, tail, below, hw, _ =>
    parse_leaf nums below (decodeNext_literal nums 't' "true" (.boolean true) w tail (ascii "rue") hw
      rfl (by decide) (fun _ => rfl))
  | _, _, _, .fails, w, tail, below, hw, _ =>
    parse_leaf nums below (decodeNext_literal nums 'f' "false" (.boolean false) w tail (ascii "alse")
      hw rfl (by decide) (fun _ => rfl))
  | _, _, _, .number bare t hn, w, tail, below, hw, hf =>
    parse_leaf nums below (decodeNext_number nums bare w t tail hw hn hf)
  | _, _, _, .negative bare t hn, w, tail, below, hw, hf =>
    parse_leaf nums below (decodeNext_negative nums bare w t tail hw hn hf)
  | _, _, _, .string body hb, w, tail, below, hw, _ =>
    parse_leaf nums below (decodeNext_string nums w body tail hw hb)
  | _, _, _, .empty kind w' hw', w, tail, below, hw, _ => by
    apply parse_leaf nums below
    rw [List.append_assoc, List.append_assoc, List.cons_append, decodeNext_opening nums kind w _ hw,
      List.singleton_append, decodeContainer_empty kind w' tail hw']
  | _, _, _, .filled kind t c hc, w, tail, below, hw, _ => by
    have hkind : c.kind = kind := (contents_kind hc).trans (kind_empty kind)
    have hclose : (kind.closing::tail).dropWhile blank = c.kind.closing::tail := by
      rw [hkind]
      exact List.dropWhile_cons_of_neg (by simp [closing_not_blank])
    rw [parse_opening nums hc w tail below hw,
      items_complete hc kind.closing tail below (closing_separator kind) (closing_not_blank kind)]
    exact settle_closing nums hclose

theorem items_complete : ∀ {c d : Container N} {t : Bytes}, Contents nums.meaning c t d →
    ∀ (b : UInt8) (tail : Bytes) (below : List (Slot N)), separator b = true → blank b = false →
      decodeItems nums ⟨c,below,t ++ b::tail⟩ = settle nums d below (b::tail)
  | _, _, _, .last c l w t w' slot bare v hl hw ht hw', b, tail, below, hs, hb => by
    rw [List.append_assoc, List.append_assoc, List.append_assoc,
      decodeItems_slot nums c below _ _ slot (decodeSlot_label nums c l _ slot hl),
      ← List.append_assoc, parse_complete ht w _ _ hw (follows_separator bare hw' b tail hs)]
    exact settle_blank nums hw' _ below b tail hb
  | _, _, _, .more c d l w t w' ts slot bare v hl hw ht hw' hts, b, tail, below, hs, hb => by
    have hcomma : (code ','::(ts ++ b::tail)).dropWhile blank = code ','::(ts ++ b::tail) :=
      List.dropWhile_cons_of_neg (by decide)
    simp only [List.append_assoc, List.cons_append]
    rw [decodeItems_slot nums c below _ _ slot (decodeSlot_label nums c l _ slot hl),
      ← List.append_assoc,
      parse_complete ht w _ _ hw (follows_separator bare hw' _ (ts ++ b::tail) (by decide))]
    apply (settle_blank nums hw' _ below (code ',') (ts ++ b::tail) (by decide)).trans
    rw [settle_comma nums hcomma]
    exact items_complete hts b tail below hs hb
end

theorem blank_rest (s : Bytes) : s.any (fun b => !blank b) = false ↔ Blank s := by
  simp [Blank]

theorem decode_text (s : Bytes) (v : Value N) : decode nums s = .ok v ↔ decodeText nums s = .ok v := by
  rw [decode]
  cases decodeText nums s with
  | error e => exact ⟨nofun,nofun⟩
  | ok u => simp [Except.mapError]

theorem decodeText_parse (s : Bytes) : decodeText nums s = (parse nums [] s).bind (fun r =>
    if r.2.any (fun b => !blank b) then
      decodeError (text "trailing garbage '" ++ r.2 ++ text "'") r.2
    else .ok r.1) := by
  rw [decodeText, parse]
  cases decodeNext nums s with
  | error e => rfl
  | ok d => cases d <;> rfl

theorem document_of_decode (s : Bytes) (v : Value N) (h : decode nums s = .ok v) :
    Document nums.meaning true s v := by
  rw [decode_text, decodeText_parse] at h
  cases hp : parse nums [] s with
  | error e =>
    rw [hp] at h
    cases h
  | ok r =>
    obtain ⟨w,bare,t,u,rest,hs,hw,ht,hf,-,ha⟩ := (runs_sound nums s.length).1 [] s r le_rfl hp
    injection ha with ha
    subst ha
    rw [hp, Except.bind] at h
    split at h
    · cases h
    · next hrest =>
      injection h with h
      subst h
      refine ⟨w,bare,t,rest,hs,hw,ht,(blank_rest rest).mp (by simpa using hrest),fun _ hbare => ?_⟩
      rintro rfl
      cases hf hbare

theorem decode_document (s : Bytes) (v : Value N) (h : Document nums.meaning true s v) :
    decode nums s = .ok v := by
  obtain ⟨w,bare,t,w',rfl,hw,ht,hw',hbare⟩ := h
  have hf : Follows bare w' := by
    cases w' with
    | nil =>
      refine .inr ⟨?_,rfl⟩
      cases bare with
      | false => rfl
      | true => exact absurd rfl (hbare rfl rfl)
    | cons b bs => exact .inl (by simp [separator, hw' b (by simp)])
  rw [decode_text, decodeText_parse, parse_complete nums ht w w' [] hw hf]
  change (if w'.any (fun b => !blank b) then _ else _) = _
  rw [(blank_rest w').mpr hw']
  rfl

/-- `json.decode` accepts the texts of the grammar and returns what they denote. A number with
an exponent needs a blank behind it where it is the whole text, and a string denotes what its
escapes do exactly if it is not mistaken. -/
theorem decode_ok_iff (s : Bytes) :
    (∀ v : Value N, decode nums s = .ok v ↔ Document nums.meaning true s v) ∧
      ∀ body, Body body → (nums.meaning.string body = meant body ↔ mistaken body = false) := by
  refine ⟨fun v => ⟨document_of_decode nums s v,decode_document nums s v⟩,fun body h => ?_⟩
  rw [meaning_string nums h]
  exact bodyValue_iff h

end Runs

end Vecoda.JsonAcceptance

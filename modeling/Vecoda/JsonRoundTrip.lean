import Vecoda.JsonAcceptance
import Vecoda.JsonTrees

/-!
# Values that come back

`json.decode` of what `json.encode` writes is the tree of the value, exactly if
no string of it is misread and it is no number with an exponent. That a number
is read back from its text is an assumption on `string.format` and `tonumber`.
-/

set_option autoImplicit false

namespace Vecoda.JsonRoundTrip
open MessagePipe LuaText JsonGrammar JsonStrings JsonEscapes JsonDecode JsonScanning JsonAcceptance JsonSpelling
open JsonEncode JsonTrees

variable {N : Type}

/-- A number is written as a numeral that `tonumber` reads as that number. -/
def Faithful (f : Formats N) (nums : Numbers N) : Prop :=
  ∀ x, f.finite x = true → ∃ bare t, Numeral bare t ∧
    ((f.format x = t ∧ nums.tonumber t = x) ∨
      (f.format x = code '-'::t ∧ nums.neg (nums.tonumber t) = x))

section Received

def receivedString (s : Bytes) : Bytes := bodyValue (encodeString s)

mutual
/-- A tree as the decoder gets it from the encoder. -/
def received : Value N → Value N
  | .null => .null
  | .boolean b => .boolean b
  | .number x => .number x
  | .string s => .string (receivedString s)
  | .array vs => .array (receivedItems vs)
  | .object es => .object ((receivedEntries es).foldl (fun acc e => assign e.1 e.2 acc) [])

def receivedItems : List (Value N) → List (Value N)
  | [] => []
  | v::vs => received v :: receivedItems vs

def receivedEntries : List (Bytes × Value N) → List (Bytes × Value N)
  | [] => []
  | (k,v)::es => (receivedString k,received v) :: receivedEntries es
end

mutual
def clear : Value N → Bool
  | .null => true
  | .boolean _ => true
  | .number _ => true
  | .string s => !misread s
  | .array vs => clearItems vs
  | .object es => clearEntries es

def clearItems : List (Value N) → Bool
  | [] => true
  | v::vs => clear v && clearItems vs

def clearEntries : List (Bytes × Value N) → Bool
  | [] => true
  | (k,v)::es => !misread k && clear v && clearEntries es
end

def exponential (f : Formats N) : Value N → Bool
  | .number x => (f.format x).any exponentMark
  | _ => false

theorem receivedString_iff (s : Bytes) : receivedString s = s ↔ misread s = false := by
  obtain ⟨hid,hshort⟩ := bodyValue_encode s
  refine ⟨fun h => ?_,hid⟩
  rw [Bool.eq_false_iff]
  intro hm
  have := hshort hm
  rw [receivedString] at h
  rw [h] at this
  exact lt_irrefl _ this

end Received

section Marks

theorem digit_not_mark (b : UInt8) (h : digit b = true) : exponentMark b = false := by
  rw [Bool.eq_false_iff]
  intro hm
  simp only [exponentMark, Bool.or_eq_true, decide_eq_true_eq] at hm
  rcases hm with rfl | rfl <;> exact absurd h (by decide)

theorem digits_no_mark {ds : Bytes} (h : ∀ b ∈ ds, digit b = true) : ds.any exponentMark = false :=
  List.any_eq_false.mpr (fun b hb => by simp [digit_not_mark b (h b hb)])

/-- The mark of an exponent stands in a numeral exactly if it has one. -/
theorem numeral_mark {bare : Bool} {t : Bytes} (h : Numeral bare t) : t.any exponentMark = bare := by
  have hplain {whole fraction : Bytes} (hw : Whole whole) (hf : Fraction fraction) :
      (whole ++ fraction).any exponentMark = false := by
    rw [List.any_append, digits_no_mark (whole_digits hw).2, Bool.false_or]
    cases hf with
    | none => rfl
    | point ds hne hds =>
      rw [List.any_cons, digits_no_mark hds]
      rfl
  cases h with
  | plain whole fraction hw hf => exact hplain hw hf
  | exponential whole fraction e hw hf he =>
    rw [List.any_append, hplain hw hf, Bool.false_or]
    cases he <;> rfl

end Marks

section Texts

variable {n : ℕ} {f : Formats N} {nums : Numbers N} {heap : Heap N n}

theorem contents_items (vs : List (Value N)) (v : Value N) (items : List (Value N))
    (h : ∀ u ∈ v::vs, Denotes nums.meaning (exponential f u) (write f u) (received u)) :
    Contents nums.meaning (.array items) (write f v ++ writeItems f vs)
      (.array (items ++ receivedItems (v::vs))) := by
  induction vs generalizing v items with
  | nil =>
    have := Contents.last (m := nums.meaning) (.array items) [] [] _ [] (.item items) _ _ (.item items)
      (List.forall_mem_nil _) (h v List.mem_cons_self) (List.forall_mem_nil _)
    simpa [writeItems, receivedItems, Slot.fill] using this
  | cons u us ih =>
    have hrest := ih u (items ++ [received v]) (fun x hx => h x (List.mem_cons_of_mem _ hx))
    have := Contents.more (m := nums.meaning) (.array items) _ [] [] _ [] _ (.item items) _ _ (.item items)
      (List.forall_mem_nil _) (h v List.mem_cons_self) (List.forall_mem_nil _) hrest
    simpa [writeItems, receivedItems, text, byte, code] using this

theorem label_key (nums : Numbers N) (k : Bytes) (acc : List (Bytes × Value N)) :
    Label nums.meaning (.object acc) (quoted (encodeString k) ++ text ":")
      (.field acc (receivedString k)) := by
  have := Label.field (m := nums.meaning) acc [] (encodeString k) [] (List.forall_mem_nil _)
    (body_encode k) (List.forall_mem_nil _)
  rw [List.nil_append, List.append_nil, meaning_string nums (body_encode k)] at this
  exact this

theorem contents_entries (es : List (Bytes × Value N)) (k : Bytes) (v : Value N)
    (acc : List (Bytes × Value N))
    (h : ∀ e ∈ (k,v)::es, Denotes nums.meaning (exponential f e.2) (write f e.2) (received e.2)) :
    Contents nums.meaning (.object acc)
      (quoted (encodeString k) ++ text ":" ++ write f v ++ writeEntries f es)
      (.object ((receivedEntries ((k,v)::es)).foldl (fun acc e => assign e.1 e.2 acc) acc)) := by
  induction es generalizing k v acc with
  | nil =>
    have := Contents.last (m := nums.meaning) (.object acc) _ [] _ [] _ _ _ (label_key nums k acc)
      (List.forall_mem_nil _) (h (k,v) List.mem_cons_self) (List.forall_mem_nil _)
    rw [List.append_nil, List.append_nil] at this
    rw [writeEntries, List.append_nil]
    exact this
  | cons e es ih =>
    obtain ⟨k',v'⟩ := e
    have hrest := ih k' v' (assign (receivedString k) (received v) acc)
      (fun x hx => h x (List.mem_cons_of_mem _ hx))
    have := Contents.more (m := nums.meaning) (.object acc) _ _ [] _ [] _ _ _ _ (label_key nums k acc)
      (List.forall_mem_nil _) (h (k,v) List.mem_cons_self) (List.forall_mem_nil _) hrest
    rw [List.append_nil, List.append_nil] at this
    simpa [writeEntries, receivedEntries, text, byte, code] using this

theorem denotes_array (vs : List (Value N))
    (h : ∀ u ∈ vs, Denotes nums.meaning (exponential f u) (write f u) (received u)) :
    Denotes nums.meaning false (write f (.array vs)) (received (.array vs)) := by
  cases vs with
  | nil =>
    rw [write, received, receivedItems]
    exact .empty .array [] (List.forall_mem_nil _)
  | cons v vs =>
    have := Denotes.filled .array _ _ (contents_items vs v [] h)
    rw [write, received]
    simpa [text, byte, code, Kind.opening, Kind.closing, Container.value] using this

theorem denotes_object (es : List (Bytes × Value N))
    (h : ∀ e ∈ es, Denotes nums.meaning (exponential f e.2) (write f e.2) (received e.2)) :
    Denotes nums.meaning false (write f (.object es)) (received (.object es)) := by
  cases es with
  | nil =>
    rw [write, received, receivedEntries]
    exact .empty .object [] (List.forall_mem_nil _)
  | cons e es =>
    obtain ⟨k,v⟩ := e
    have := Denotes.filled .object _ _ (contents_entries es k v [] h)
    rw [write, received]
    simpa [text, byte, code, Kind.opening, Kind.closing, Container.value] using this

theorem denotes_number (hlaw : Faithful f nums) (x : N) (hx : f.finite x = true) :
    Denotes nums.meaning (exponential f (.number x)) (write f (.number x)) (received (.number x)) := by
  obtain ⟨bare,t,ht,⟨hf,hn⟩ | ⟨hf,hn⟩⟩ := hlaw x hx
  · have hm : exponential f (.number x) = bare := by
      rw [exponential, hf, numeral_mark ht]
    rw [hm, write, received, hf]
    have : Denotes nums.meaning bare t (.number (nums.tonumber t)) := .number bare t ht
    rwa [hn] at this
  · have hm : exponential f (.number x) = bare := by
      rw [exponential, hf, List.any_cons, numeral_mark ht]
      cases bare <;> rfl
    rw [hm, write, received, hf]
    have : Denotes nums.meaning bare (code '-'::t) (.number (nums.neg (nums.tonumber t))) :=
      .negative bare t ht
    rwa [hn] at this

mutual
/-- The text of a value is of the grammar, for the tree as it is received. -/
theorem denotes_of_unfolds (hlaw : Faithful f nums) : ∀ {v : LuaValue N n} {w : Value N},
    Unfolds f heap v w → Denotes nums.meaning (exponential f w) (write f w) (received w)
  | _, _, .nil => by rw [write, received]; exact .null
  | _, _, .null => by rw [write, received]; exact .null
  | _, _, .boolean b => by
    rw [write, received]
    cases b
    · exact .fails
    · exact .holds
  | _, _, .number x hx => denotes_number hlaw x hx
  | _, _, .string s => by
    rw [write, received, receivedString, ← meaning_string nums (body_encode s)]
    exact .string _ (body_encode s)
  | _, _, .empty t he => by
    cases (heap t).objectMt
    · exact denotes_array [] (List.forall_mem_nil _)
    · exact denotes_object [] (List.forall_mem_nil _)
  | _, _, .object t es vs hne ho hvs =>
    denotes_object _ (fun _ he => denotesAll_of_unfolds hlaw hvs _ (List.of_mem_zip he).2)
  | _, _, .array t us vs hne ha hvs => denotes_array vs (denotesAll_of_unfolds hlaw hvs)

theorem denotesAll_of_unfolds (hlaw : Faithful f nums) : ∀ {us : List (LuaValue N n)}
    {ws : List (Value N)}, UnfoldsAll f heap us ws →
    ∀ w ∈ ws, Denotes nums.meaning (exponential f w) (write f w) (received w)
  | _, _, .nil, _, hw => nomatch hw
  | _, _, .cons u w us ws h hs, x, hx => by
    rcases List.mem_cons.mp hx with hw | hx
    · rw [hw]
      exact denotes_of_unfolds hlaw h
    · exact denotesAll_of_unfolds hlaw hs x hx
end

end Texts

section Values

variable {n : ℕ} {f : Formats N} {heap : Heap N n}

theorem assign_length (key : Bytes) (v : Value N) (acc : List (Bytes × Value N))
    (h : key ∈ acc.map Prod.fst) : (assign key v acc).length = acc.length := by
  induction acc with
  | nil => cases h
  | cons e acc ih =>
    rw [assign]
    split
    · rfl
    · next hne =>
      rcases List.mem_cons.mp h with hk | h
      · exact absurd hk.symm hne
      · rw [List.length_cons, ih h, List.length_cons]

/-- Entries that are assigned one after the other become fewer unless their keys are distinct. -/
theorem assign_entries (l acc : List (Bytes × Value N)) :
    l.foldl (fun acc e => assign e.1 e.2 acc) acc = acc ++ l ∨
      (l.foldl (fun acc e => assign e.1 e.2 acc) acc).length < acc.length + l.length := by
  induction l generalizing acc with
  | nil => exact .inl (List.append_nil acc).symm
  | cons e l ih =>
    rw [List.foldl_cons, List.length_cons]
    by_cases hk : e.1 ∈ acc.map Prod.fst
    · right
      have hlen := assign_length e.1 e.2 acc hk
      rcases ih (assign e.1 e.2 acc) with heq | hlt
      · rw [heq, List.length_append, hlen]
        omega
      · omega
    · rw [assign_fresh _ _ _ hk]
      rcases ih (acc ++ [(e.1,e.2)]) with heq | hlt
      · exact .inl (by rw [heq, List.append_assoc, List.singleton_append])
      · right
        simp only [List.length_append, List.length_cons, List.length_nil] at hlt
        omega

theorem assign_distinct (l acc : List (Bytes × Value N)) (h : ((acc ++ l).map Prod.fst).Nodup) :
    l.foldl (fun acc e => assign e.1 e.2 acc) acc = acc ++ l := by
  induction l generalizing acc with
  | nil => simp
  | cons e l ih =>
    have hfresh : e.1 ∉ acc.map Prod.fst := by
      rw [List.map_append, List.map_cons] at h
      exact fun hm => (List.nodup_append.mp h).2.2 _ hm _ List.mem_cons_self rfl
    rw [List.foldl_cons, assign_fresh _ _ _ hfresh, ih _ (by simpa using h)]
    simp

theorem receivedEntries_length (es : List (Bytes × Value N)) : (receivedEntries es).length = es.length := by
  induction es with
  | nil => rw [receivedEntries]
  | cons e es ih =>
    obtain ⟨k,v⟩ := e
    rw [receivedEntries, List.length_cons, ih, List.length_cons]

theorem items_iff (vs : List (Value N)) (h : ∀ v ∈ vs, received v = v ↔ clear v = true) :
    receivedItems vs = vs ↔ clearItems vs = true := by
  induction vs with
  | nil => rw [receivedItems, clearItems]; exact ⟨fun _ => rfl,fun _ => rfl⟩
  | cons v vs ih =>
    rw [receivedItems, clearItems, List.cons.injEq, Bool.and_eq_true, h v List.mem_cons_self,
      ih (fun u hu => h u (List.mem_cons_of_mem _ hu))]

theorem entries_iff (es : List (Bytes × Value N)) (h : ∀ e ∈ es, received e.2 = e.2 ↔ clear e.2 = true) :
    receivedEntries es = es ↔ clearEntries es = true := by
  induction es with
  | nil => rw [receivedEntries, clearEntries]; exact ⟨fun _ => rfl,fun _ => rfl⟩
  | cons e es ih =>
    obtain ⟨k,v⟩ := e
    rw [receivedEntries, clearEntries, List.cons.injEq, Bool.and_eq_true, Bool.and_eq_true,
      Prod.mk.injEq, receivedString_iff, h (k,v) List.mem_cons_self,
      ih (fun u hu => h u (List.mem_cons_of_mem _ hu)), Bool.not_eq_true']

theorem object_iff (es : List (Bytes × Value N)) (hd : (es.map Prod.fst).Nodup)
    (h : ∀ e ∈ es, received e.2 = e.2 ↔ clear e.2 = true) :
    received (.object es) = .object es ↔ clear (.object es) = true := by
  rw [received, clear, Value.object.injEq, ← entries_iff es h]
  constructor
  · intro he
    rcases assign_entries (receivedEntries es) [] with heq | hlt
    · rw [heq, List.nil_append] at he
      exact he
    · rw [he, receivedEntries_length, List.length_nil, Nat.zero_add] at hlt
      exact absurd hlt (lt_irrefl _)
  · intro he
    rw [he, assign_distinct es [] (by simpa using hd), List.nil_append]

theorem object_distinct {t : Table N n} {es : List (Bytes × LuaValue N n)} (h : ObjectOf t es) :
    (es.map Prod.fst).Nodup := by
  have hfst : (t.entries.map Prod.fst).Perm ((es.map Prod.fst).map Key.string) := by
    have := h.perm.map Prod.fst
    simpa [Function.comp_def] using this
  exact List.Nodup.of_map _ (hfst.nodup_iff.mp t.distinct)

mutual
/-- A tree is received as it is exactly if no string of it is misread. -/
theorem received_iff : ∀ {v : LuaValue N n} {w : Value N}, Unfolds f heap v w →
    (received w = w ↔ clear w = true)
  | _, _, .nil => by rw [received, clear]; exact ⟨fun _ => rfl,fun _ => rfl⟩
  | _, _, .null => by rw [received, clear]; exact ⟨fun _ => rfl,fun _ => rfl⟩
  | _, _, .boolean b => by rw [received, clear]; exact ⟨fun _ => rfl,fun _ => rfl⟩
  | _, _, .number x hx => by rw [received, clear]; exact ⟨fun _ => rfl,fun _ => rfl⟩
  | _, _, .string s => by
    rw [received, clear, Value.string.injEq, receivedString_iff, Bool.not_eq_true']
  | _, _, .empty t he => by
    cases (heap t).objectMt
    · exact Iff.intro (fun _ => by simp [clear, clearItems]) (fun _ => by simp [received, receivedItems])
    · exact Iff.intro (fun _ => by simp [clear, clearEntries])
        (fun _ => by simp [received, receivedEntries])
  | _, _, .object t es vs hne ho hvs => by
    refine object_iff _ ?_ (fun e he => receivedAll_iff hvs e.2 (List.of_mem_zip he).2)
    have hlen : es.length = vs.length := by simpa using unfoldsAll_length hvs
    rw [List.map_fst_zip (by simpa using hlen.le)]
    exact object_distinct ho
  | _, _, .array t us vs hne ha hvs => by
    rw [received, clear, Value.array.injEq]
    exact items_iff vs (receivedAll_iff hvs)

theorem receivedAll_iff : ∀ {us : List (LuaValue N n)} {ws : List (Value N)},
    UnfoldsAll f heap us ws → ∀ w ∈ ws, (received w = w ↔ clear w = true)
  | _, _, .nil, _, hw => nomatch hw
  | _, _, .cons u w us ws h hs, x, hx => by
    rcases List.mem_cons.mp hx with hw | hx
    · rw [hw]
      exact received_iff h
    · exact receivedAll_iff hs x hx
end

end Values

section Documents

variable {n : ℕ} {f : Formats N} {heap : Heap N n} {nums : Numbers N}

/-- A text denotes one value: with a blank behind it the decoder returns any of them. -/
theorem denotes_unique {s : Bytes} {u : Value N} {bare : Bool} {v : Value N}
    (hu : Document nums.meaning true s u) (hv : Denotes nums.meaning bare s v) : u = v := by
  have hblank : Blank [code ' '] := List.forall_mem_singleton.mpr (by decide)
  have hleft : decode nums (s ++ [code ' ']) = .ok u := by
    obtain ⟨w,bare,t,w',rfl,hw,ht,hw',-⟩ := hu
    refine decode_document nums _ u ⟨w,bare,t,w' ++ [code ' '],by simp,hw,ht,?_,fun _ _ => by simp⟩
    exact List.forall_mem_append.mpr ⟨hw',hblank⟩
  have hright : decode nums (s ++ [code ' ']) = .ok v :=
    decode_document nums _ v
      ⟨[],bare,s,[code ' '],rfl,List.forall_mem_nil _,hv,hblank,fun _ _ => by simp⟩
  rw [hleft] at hright
  injection hright

theorem exponent_last {e : Bytes} (he : Exponent e) (pre : Bytes) :
    ∃ b, (pre ++ e).getLast? = some b ∧ digit b = true := by
  have hlast (mark : UInt8) (sign ds : Bytes) (hne : ds ≠ []) (hds : ∀ b ∈ ds, digit b = true) :
      ∃ b, (pre ++ (mark::sign ++ ds)).getLast? = some b ∧ digit b = true := by
    refine ⟨ds.getLast hne,?_,hds _ (List.getLast_mem hne)⟩
    rw [← List.append_assoc, List.getLast?_append_of_ne_nil _ hne, List.getLast?_eq_some_getLast hne]
  cases he with
  | lower sign ds hs hne hds => exact hlast _ sign ds hne hds
  | upper sign ds hs hne hds => exact hlast _ sign ds hne hds

/-- The text of a number with an exponent ends in a digit. -/
theorem exponential_last (hlaw : Faithful f nums) {x : N} (hx : f.finite x = true)
    (h : exponential f (.number x) = true) : ∃ b, (f.format x).getLast? = some b ∧ digit b = true := by
  have hnumeral {bare : Bool} {t : Bytes} (ht : Numeral bare t) (hb : bare = true) (pre : Bytes) :
      ∃ b, (pre ++ t).getLast? = some b ∧ digit b = true := by
    cases ht with
    | plain whole fraction hw hf => cases hb
    | exponential whole fraction e hw hf he =>
      rw [← List.append_assoc]
      exact exponent_last he (pre ++ (whole ++ fraction))
  rw [exponential] at h
  obtain ⟨bare,t,ht,⟨hf,-⟩ | ⟨hf,-⟩⟩ := hlaw x hx
  · rw [hf] at h ⊢
    exact hnumeral ht ((numeral_mark ht).symm.trans h) []
  · rw [hf] at h ⊢
    refine hnumeral ht ?_ [code '-']
    rw [← numeral_mark ht]
    simpa [exponentMark, code] using h

/-- The text of a table has no exponent at its end. -/
theorem table_not_exponential {t : Fin n} {w : Value N}
    (h : Unfolds f heap (.table t) w) : exponential f w = false := by
  cases h with
  | empty _ he => cases (heap t).objectMt <;> rfl
  | object => rfl
  | array => rfl

theorem number_mark {m : Meaning N} {bare : Bool} {t : Bytes} {v : Value N} (h : Denotes m bare t v)
    {x : N} (hv : v = .number x) : t.any exponentMark = bare := by
  cases h with
  | number bare t hn => exact numeral_mark hn
  | negative bare t hn =>
    rw [List.any_cons, numeral_mark hn]
    cases bare <;> rfl
  | empty kind w hw => cases kind <;> cases hv
  | filled kind t c hc => cases c <;> cases hv
  | _ => cases hv

/-- What the decoder makes of an encoded value. -/
theorem decode_written (hlaw : Faithful f nums) {v : LuaValue N n} {w : Value N}
    (hw : Unfolds f heap v w) (u : Value N) :
    decode nums (write f w) = .ok u ↔ exponential f w = false ∧ u = received w := by
  have hd : Denotes nums.meaning (exponential f w) (write f w) (received w) :=
    denotes_of_unfolds hlaw hw
  constructor
  · intro hdecode
    have hdoc := document_of_decode nums _ u hdecode
    have hu := denotes_unique hdoc hd
    refine ⟨?_,hu⟩
    rw [Bool.eq_false_iff]
    intro hexp
    cases hw with
    | number x hx =>
      obtain ⟨w,bare,t,w',hs,hblank,ht,hblank',hguard⟩ := hdoc
      obtain ⟨b,hb,hdigit⟩ := exponential_last hlaw hx hexp
      have hw' : w' = [] := by
        by_contra hne
        rw [write] at hs
        rw [hs, List.getLast?_append_of_ne_nil _ hne] at hb
        have := hblank' b (List.mem_of_getLast? hb)
        rw [JsonItems.not_blank_of_digit b hdigit] at this
        cases this
      have hbare : bare = false := by
        rw [Bool.eq_false_iff]
        exact fun hb => hguard rfl hb hw'
      have hmark : t.any exponentMark = false := by
        rw [hu, received] at ht
        rw [number_mark ht rfl, hbare]
      have hblanks : w.any exponentMark = false := by
        refine List.any_eq_false.mpr (fun b hb hm => ?_)
        have hbl := hblank b hb
        have := (separator_cases b (by simp [separator, hbl])).2.2
        rw [hm] at this
        cases this
      rw [write] at hs
      rw [exponential, hs, hw', List.append_nil, List.any_append, hblanks, hmark] at hexp
      cases hexp
    | empty t he =>
      rw [table_not_exponential (.empty t he)] at hexp
      cases hexp
    | _ => cases hexp
  · rintro ⟨hexp,rfl⟩
    rw [hexp] at hd
    exact decode_document nums _ _
      ⟨[],false,write f w,[],by simp,List.forall_mem_nil _,hd,List.forall_mem_nil _,
        fun _ hb => absurd hb Bool.false_ne_true⟩

/-- An encoded value is decoded to its tree exactly if it is no number with an exponent and no
string of it is misread. -/
theorem decode_encode (hlaw : Faithful f nums) (v : LuaValue N n) (s : Bytes)
    (h : encode f heap v = .ok s) :
    ∃ w, Unfolds f heap v w ∧
      (decode nums s = .ok w ↔ exponential f w = false ∧ clear w = true) := by
  obtain ⟨w,hw,rfl⟩ := unfolds_of_encode f heap ∅ v s h
  refine ⟨w,hw,?_⟩
  rw [decode_written hlaw hw w, ← received_iff hw, eq_comm (a := w)]

def naturalFormats : Formats ℕ := ⟨fun _ => true,Framing.decimal,Framing.decimal⟩

def naturalNumbers : Numbers ℕ := ⟨Framing.decimalValue,id⟩

theorem decimal_head (n : ℕ) (h : 0 < n) : (Framing.decimal n).head? ≠ some (code '0') := by
  have hdigit : ∀ d < 10, 0 < d → UInt8.ofNat (48 + d) ≠ code '0' := by decide
  induction n using Framing.decimal.induct with
  | case1 n hn =>
    rw [Framing.decimal, if_pos hn]
    simpa using hdigit n hn h
  | case2 n hn ih =>
    rw [Framing.decimal, if_neg hn, List.head?_append_of_ne_nil _ (Framing.decimal_ne_nil _)]
    exact ih (by omega)

theorem decimal_numeral (n : ℕ) : Numeral false (Framing.decimal n) := by
  have hwhole : Whole (Framing.decimal n) := by
    rcases Nat.eq_zero_or_pos n with rfl | hn
    · rw [Framing.decimal, if_pos (by decide)]
      exact .zero
    · have hhead := decimal_head n hn
      have hall := Framing.decimal_digits n
      revert hhead hall
      cases hd : Framing.decimal n with
      | nil => exact absurd hd (Framing.decimal_ne_nil n)
      | cons d ds =>
        intro hhead hall
        exact .other d ds (hall d List.mem_cons_self) (by simpa using hhead)
          (fun b hb => hall b (List.mem_cons_of_mem _ hb))
  have := Numeral.plain _ [] hwhole .none
  rwa [List.append_nil] at this

theorem naturals_faithful : Faithful naturalFormats naturalNumbers := fun x _ =>
  ⟨false,Framing.decimal x,decimal_numeral x,.inl ⟨rfl,Framing.decimalValue_decimal x⟩⟩

def seqTable : Heap ℕ 1 := fun _ =>
  ⟨[(.string (text "seq"),.number 7)],false,by simp,by simp⟩

theorem seqTable_unfolds :
    Unfolds naturalFormats seqTable (.table 0) (.object [(text "seq",.number 7)]) := by
  have h : ObjectOf (seqTable 0) [(text "seq",LuaValue.number 7)] :=
    ⟨List.Perm.refl _,List.pairwise_singleton _ _⟩
  exact .object 0 _ [.number 7] (by simp) h (.cons _ _ _ _ (.number 7 rfl) .nil)

/-- A message of one field is encoded, and comes back. -/
theorem decode_encode_seq :
    ∃ w, Unfolds naturalFormats seqTable (.table 0) w ∧
      (decode naturalNumbers (write naturalFormats (.object [(text "seq",.number 7)])) = .ok w ↔
        exponential naturalFormats w = false ∧ clear w = true) :=
  decode_encode naturals_faithful (.table 0) _
    (encode_of_unfolds seqTable_unfolds ∅ (fun u hu => absurd hu (Finset.notMem_empty u)))

end Documents

end Vecoda.JsonRoundTrip

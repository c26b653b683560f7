import Vecoda.JsonRoundTrip

/-!
# Encoding what was decoded

`json.decode` builds new tables, and a handler may put them into what it sends.
A value of the heap holds a tree as the decoder lays it out. Encoding it gives
the text of the tree with the keys of each object in order, and raises exactly
where a number in it is not finite.
-/

set_option autoImplicit false

namespace Vecoda.DecodedTables
open MessagePipe LuaText JsonGrammar JsonStrings JsonEncode JsonDecode JsonTrees JsonRoundTrip

section Order

variable {α β : Type}

def sortByKey (es : List (Bytes × α)) : List (Bytes × α) := es.mergeSort (fun a b => keyLe a.1 b.1)

@[simp] theorem sortByKey_nil : sortByKey ([] : List (Bytes × α)) = [] := List.mergeSort_nil

theorem sortByKey_perm (es : List (Bytes × α)) : (sortByKey es).Perm es := List.mergeSort_perm es _

theorem sortByKey_ne_nil {es : List (Bytes × α)} (h : es ≠ []) : sortByKey es ≠ [] := by
  obtain ⟨e,he⟩ := List.exists_mem_of_ne_nil es h
  exact List.ne_nil_of_mem ((sortByKey_perm es).symm.subset he)

theorem sortByKey_sorted (es : List (Bytes × α)) :
    (sortByKey es).Pairwise (fun a b => keyLe a.1 b.1 = true) :=
  List.pairwise_mergeSort (fun a b c => keyLe_trans a.1 b.1 c.1) (fun a b => keyLe_total a.1 b.1) es

theorem sortByKey_sortByKey (es : List (Bytes × α)) : sortByKey (sortByKey es) = sortByKey es :=
  List.mergeSort_of_pairwise (sortByKey_sorted es)

theorem sortByKey_map (g : Bytes × α → Bytes × β) (hg : ∀ e, (g e).1 = e.1)
    (es : List (Bytes × α)) :
    (sortByKey es).map g = sortByKey (es.map g) :=
  List.map_mergeSort fun a _ b _ => by rw [hg, hg]

end Order

section Trees

variable {N : Type}

mutual
def ordered : Value N → Value N
  | .array vs => .array (orderedItems vs)
  | .object es => .object (sortByKey (orderedEntries es))
  | v => v

def orderedItems : List (Value N) → List (Value N)
  | [] => []
  | v::vs => ordered v::orderedItems vs

def orderedEntries : List (Bytes × Value N) → List (Bytes × Value N)
  | [] => []
  | (k,v)::es => (k,ordered v)::orderedEntries es
end

variable (f : Formats N)

mutual
def finite : Value N → Bool
  | .number x => f.finite x
  | .array vs => finiteItems vs
  | .object es => finiteEntries es
  | _ => true

def finiteItems : List (Value N) → Bool
  | [] => true
  | v::vs => finite v && finiteItems vs

def finiteEntries : List (Bytes × Value N) → Bool
  | [] => true
  | (_,v)::es => finite v && finiteEntries es
end

theorem orderedItems_map (vs : List (Value N)) : orderedItems vs = vs.map ordered := by
  induction vs with
  | nil => rfl
  | cons v vs ih => rw [orderedItems, ih, List.map_cons]

theorem orderedEntries_map (es : List (Bytes × Value N)) :
    orderedEntries es = es.map (fun e => (e.1,ordered e.2)) := by
  induction es with
  | nil => rfl
  | cons e es ih =>
    obtain ⟨k,v⟩ := e
    rw [orderedEntries, ih, List.map_cons]

theorem finiteItems_iff (vs : List (Value N)) : finiteItems f vs = true ↔
    ∀ v ∈ vs, finite f v = true := by
  induction vs with
  | nil => exact iff_of_true rfl (List.forall_mem_nil _)
  | cons v vs ih => rw [finiteItems, Bool.and_eq_true, ih, List.forall_mem_cons]

theorem finiteEntries_iff (es : List (Bytes × Value N)) :
    finiteEntries f es = true ↔ ∀ e ∈ es, finite f e.2 = true := by
  induction es with
  | nil => exact iff_of_true rfl (List.forall_mem_nil _)
  | cons e es ih =>
    obtain ⟨k,v⟩ := e
    rw [finiteEntries, Bool.and_eq_true, ih, List.forall_mem_cons]

mutual
theorem tree_induction {P : Value N → Prop} (null : P .null) (boolean : ∀ b, P (.boolean b))
    (number : ∀ x, P (.number x)) (string : ∀ s, P (.string s))
    (array : ∀ vs, (∀ v ∈ vs, P v) → P (.array vs))
    (object : ∀ es, (∀ e ∈ es, P e.2) → P (.object es)) : ∀ v : Value N, P v
  | .null => null
  | .boolean b => boolean b
  | .number x => number x
  | .string s => string s
  | .array vs => array vs (items_induction null boolean number string array object vs)
  | .object es => object es (entries_induction null boolean number string array object es)

theorem items_induction {P : Value N → Prop} (null : P .null) (boolean : ∀ b, P (.boolean b))
    (number : ∀ x, P (.number x)) (string : ∀ s, P (.string s))
    (array : ∀ vs, (∀ v ∈ vs, P v) → P (.array vs))
    (object : ∀ es, (∀ e ∈ es, P e.2) → P (.object es)) : ∀ vs : List (Value N), ∀ v ∈ vs, P v
  | [] => List.forall_mem_nil _
  | v::vs => List.forall_mem_cons.mpr
      ⟨tree_induction null boolean number string array object v,
        items_induction null boolean number string array object vs⟩

theorem entries_induction {P : Value N → Prop} (null : P .null) (boolean : ∀ b, P (.boolean b))
    (number : ∀ x, P (.number x)) (string : ∀ s, P (.string s))
    (array : ∀ vs, (∀ v ∈ vs, P v) → P (.array vs))
    (object : ∀ es, (∀ e ∈ es, P e.2) → P (.object es)) :
    ∀ es : List (Bytes × Value N), ∀ e ∈ es, P e.2
  | [] => List.forall_mem_nil _
  | (_,v)::es => List.forall_mem_cons.mpr
      ⟨tree_induction null boolean number string array object v,
        entries_induction null boolean number string array object es⟩
end

/-- Whether all entries are fine does not depend on their order. -/
theorem forall_sorted {P : Value N → Prop} (es : List (Bytes × Value N)) :
    (∀ e ∈ sortByKey (orderedEntries es), P e.2) ↔ ∀ e ∈ es, P (ordered e.2) := by
  simp only [(sortByKey_perm _).mem_iff, orderedEntries_map, List.forall_mem_map]

theorem finite_ordered (v : Value N) : finite f (ordered v) = true ↔ finite f v = true := by
  induction v using tree_induction with
  | null | boolean | number | string => exact Iff.rfl
  | array vs ih =>
    rw [ordered, finite, finite, finiteItems_iff, finiteItems_iff, orderedItems_map,
      List.forall_mem_map]
    exact forall₂_congr ih
  | object es ih =>
    rw [ordered, finite, finite, finiteEntries_iff, finiteEntries_iff,
      forall_sorted (P := fun v => finite f v = true)]
    exact forall₂_congr ih

theorem ordered_ordered (v : Value N) : ordered (ordered v) = ordered v := by
  induction v using tree_induction with
  | null | boolean | number | string => rfl
  | array vs ih =>
    rw [ordered, ordered, orderedItems_map, orderedItems_map, List.map_map]
    exact congrArg Value.array (List.map_congr_left ih)
  | object es ih =>
    have hsame : orderedEntries (orderedEntries es) = orderedEntries es := by
      rw [orderedEntries_map, orderedEntries_map, List.map_map]
      exact List.map_congr_left fun e he => Prod.ext rfl (ih e he)
    rw [ordered, ordered, orderedEntries_map,
      sortByKey_map (fun e => (e.1,ordered e.2)) (fun _ => rfl), ← orderedEntries_map, hsame,
      sortByKey_sortByKey]

end Trees

section Heap

variable {N : Type} {n : ℕ}

def numbered (us : List (LuaValue N n)) : List (Key × LuaValue N n) :=
  us.zipIdx.map (fun e => (.integer (e.2 + 1),e.1))

/-- A value and the tree that it holds. Only an empty object has the metatable of objects. -/
inductive Holds (heap : Heap N n) : LuaValue N n → Value N → Prop
  | null : Holds heap .null .null
  | boolean (b : Bool) : Holds heap (.boolean b) (.boolean b)
  | number (x : N) : Holds heap (.number x) (.number x)
  | string (s : Bytes) : Holds heap (.string s) (.string s)
  | array (t : Fin n) (rows : List (LuaValue N n × Value N)) (hmt : (heap t).objectMt = false)
      (h : (heap t).entries.Perm (numbered (rows.map Prod.fst)))
      (hs : ∀ r ∈ rows, Holds heap r.1 r.2) :
      Holds heap (.table t) (.array (rows.map Prod.snd))
  | object (t : Fin n) (rows : List (Bytes × LuaValue N n × Value N))
      (hmt : (heap t).objectMt = rows.isEmpty)
      (h : (heap t).entries.Perm (rows.map (fun r => (Key.string r.1,r.2.1))))
      (hs : ∀ r ∈ rows, Holds heap r.2.1 r.2.2) :
      Holds heap (.table t) (.object (rows.map (fun r => (r.1,r.2.2))))

variable {f : Formats N} {heap : Heap N n}

theorem holds_ne_nil {u : LuaValue N n} {v : Value N} (h : Holds heap u v) : u ≠ .nil := by
  rintro rfl
  cases h

theorem unfoldsAll_map {α : Type} (g : α → LuaValue N n) (w : α → Value N) (rows : List α)
    (h : ∀ r ∈ rows, Unfolds f heap (g r) (w r)) : UnfoldsAll f heap (rows.map g) (rows.map w) := by
  induction rows with
  | nil => exact .nil
  | cons r rows ih =>
    obtain ⟨hr,hrows⟩ := List.forall_mem_cons.mp h
    exact .cons _ _ _ _ hr (ih hrows)

theorem unfoldsAll_mem : ∀ {us : List (LuaValue N n)}
    {ws : List (Value N)}, UnfoldsAll f heap us ws →
    ∀ u ∈ us, ∃ w, Unfolds f heap u w
  | _, _, .nil, _, hu => absurd hu List.not_mem_nil
  | _, _, .cons u w us ws h hs, x, hx => by
    rcases List.mem_cons.mp hx with hxu | hx
    · exact ⟨w,hxu ▸ h⟩
    · exact unfoldsAll_mem hs x hx

theorem numbered_mem (us : List (LuaValue N n)) (e : Key × LuaValue N n) :
    e ∈ numbered us ↔ ∃ i, e.1 = .integer ((i : ℕ) + 1) ∧ us[i]? = some e.2 := by
  obtain ⟨k,u⟩ := e
  simp only [numbered, List.mem_map, Prod.exists, List.mem_zipIdx_iff_getElem?, Prod.mk.injEq]
  constructor
  · rintro ⟨u,i,hi,rfl,rfl⟩
    exact ⟨i,rfl,hi⟩
  · rintro ⟨i,hk,hi⟩
    exact ⟨u,i,hi,hk.symm,rfl⟩

/-- Every value in a table that unfolds does so too. -/
theorem unfolds_entry {t : Fin n} {w : Value N} (h : Unfolds f heap (.table t) w)
    {e : Key × LuaValue N n}
    (he : e ∈ (heap t).entries) : ∃ w', Unfolds f heap e.2 w' := by
  cases h with
  | empty _ hnone => exact absurd he (hnone ▸ List.not_mem_nil)
  | object _ es vs _ hes hvs =>
    obtain ⟨e',he',rfl⟩ := List.mem_map.mp (hes.perm.subset he)
    exact unfoldsAll_mem hvs _ (List.mem_map_of_mem he')
  | array _ us vs _ hus hvs =>
    obtain ⟨i,hi,hk⟩ := hus.keys e he
    apply unfoldsAll_mem hvs _
    rw [hus.values]
    refine List.mem_map.mpr ⟨i,List.mem_range.mpr hi,?_⟩
    rw [← hk, get_entry _ e he]

theorem finite_of_unfolds {u : LuaValue N n} {v w : Value N} (h : Holds heap u v)
    (hw : Unfolds f heap u w) : finite f v = true := by
  induction h generalizing w with
  | null | boolean | string => rfl
  | number x =>
    cases hw with
    | number _ hx => exact hx
  | array t rows hmt hentries hs ih =>
    rw [finite, finiteItems_iff]
    refine List.forall_mem_map.mpr fun r hr => ?_
    obtain ⟨i,hi⟩ := List.mem_iff_getElem?.mp (List.mem_map_of_mem (f := Prod.fst) hr)
    have he : (Key.integer ((i : ℕ) + 1),r.1) ∈ (heap t).entries :=
      hentries.symm.subset ((numbered_mem _ _).mpr ⟨i,rfl,hi⟩)
    obtain ⟨w',hw'⟩ := unfolds_entry hw he
    exact ih r hr hw'
  | object t rows hmt hentries hs ih =>
    rw [finite, finiteEntries_iff]
    refine List.forall_mem_map.mpr fun r hr => ?_
    have he : (Key.string r.1,r.2.1) ∈ (heap t).entries :=
      hentries.symm.subset (List.mem_map.mpr ⟨r,hr,rfl⟩)
    obtain ⟨w',hw'⟩ := unfolds_entry hw he
    exact ih r hr hw'

theorem arrayOf_held {t : Fin n} {us : List (LuaValue N n)}
    (h : (heap t).entries.Perm (numbered us))
    (hnil : ∀ u ∈ us, u ≠ .nil) : ArrayOf (heap t) us where
  keys e he := by
    obtain ⟨i,hk,hi⟩ := (numbered_mem us e).mp (h.subset he)
    exact ⟨i,(List.getElem?_eq_some_iff.mp hi).1,hk⟩
  values := by
    refine List.ext_getElem (by simp) fun i hi _ => ?_
    have he : (Key.integer ((i : ℕ) + 1),us[i]) ∈ (heap t).entries :=
      h.symm.subset ((numbered_mem us _).mpr ⟨i,rfl,List.getElem?_eq_getElem hi⟩)
    rw [List.getElem_map, List.getElem_range]
    exact (get_entry _ _ he).symm
  last hlast := hnil .nil (List.mem_of_getLast? hlast) rfl

theorem objectOf_held {t : Fin n} {rows : List (Bytes × LuaValue N n × Value N)}
    (h : (heap t).entries.Perm (rows.map (fun r => (Key.string r.1,r.2.1)))) :
    ObjectOf (heap t) ((sortByKey rows).map (fun r => (r.1,r.2.1))) where
  perm := by
    rw [List.map_map]
    exact h.trans ((sortByKey_perm rows).map _).symm
  sorted := by
    rw [List.map_map]
    exact List.pairwise_map.mpr (sortByKey_sorted rows)

/-- A table with names only, the tree of each value known. -/
theorem unfolds_rows {t : Fin n} {rows : List (Bytes × LuaValue N n × Value N)} (hne : rows ≠ [])
    (h : (heap t).entries.Perm (rows.map (fun r => (Key.string r.1,r.2.1))))
    (hall : ∀ r ∈ rows, Unfolds f heap r.2.1 r.2.2) :
    Unfolds f heap (.table t) (.object (sortByKey (rows.map (fun r => (r.1,r.2.2))))) := by
  have hsorted : ∀ r ∈ sortByKey rows, Unfolds f heap r.2.1 r.2.2 := fun r hr =>
    hall r ((sortByKey_perm rows).subset hr)
  have hvalues :=
    unfoldsAll_map (fun r : Bytes × LuaValue N n × Value N => r.2.1) (fun r => r.2.2) _ hsorted
  have hobject :=
    Unfolds.object t _ _ (fun hnil => sortByKey_ne_nil hne (List.map_eq_nil_iff.mp hnil))
    (objectOf_held h) (by rw [List.map_map]; exact hvalues)
  rw [List.map_map, List.zip_map'] at hobject
  exact sortByKey_map (fun r : Bytes × LuaValue N n × Value N => (r.1,r.2.2))
      (fun _ => rfl) rows ▸ hobject

theorem unfolds_held {u : LuaValue N n} {v : Value N} (h : Holds heap u v)
    (hv : finite f v = true) :
    Unfolds f heap u (ordered v) := by
  induction h with
  | null => exact .null
  | boolean b => exact .boolean b
  | number x => exact .number x hv
  | string s => exact .string s
  | array t rows hmt hentries hs ih =>
    rw [finite, finiteItems_iff, List.forall_mem_map] at hv
    rw [ordered, orderedItems_map, List.map_map]
    cases rows with
    | nil =>
      have hempty := Unfolds.empty (f := f) t (List.perm_nil.mp hentries)
      rw [hmt] at hempty
      exact hempty
    | cons r rows =>
      have hnil : ∀ u ∈ (r::rows).map Prod.fst, u ≠ .nil :=
        List.forall_mem_map.mpr fun r hr => holds_ne_nil (hs r hr)
      exact .array t ((r::rows).map Prod.fst) _ (List.cons_ne_nil _ _) (arrayOf_held hentries hnil)
        (unfoldsAll_map Prod.fst _ (r::rows) fun r hr => ih r hr (hv r hr))
  | object t rows hmt hentries hs ih =>
    rw [finite, finiteEntries_iff, List.forall_mem_map] at hv
    rw [ordered, orderedEntries_map, List.map_map]
    rcases eq_or_ne rows [] with rfl | hne
    · have hempty := Unfolds.empty (f := f) t (List.perm_nil.mp hentries)
      rw [hmt] at hempty
      simpa using hempty
    · have hentries' : (heap t).entries.Perm ((rows.map (fun q => (q.1,q.2.1,ordered q.2.2))).map
          (fun q => (Key.string q.1,q.2.1))) := by
        rw [List.map_map]
        exact hentries
      have hall : ∀ q ∈ rows.map (fun q => (q.1,q.2.1,ordered q.2.2)), Unfolds f heap q.2.1 q.2.2 :=
        List.forall_mem_map.mpr fun q hq => ih q hq (hv q hq)
      have hrows := unfolds_rows (fun hnil => hne (List.map_eq_nil_iff.mp hnil)) hentries' hall
      rw [List.map_map] at hrows
      exact hrows

/-- What was decoded is encoded exactly if its numbers are finite, with its keys in order. -/
theorem encode_held {u : LuaValue N n} {v : Value N} (h : Holds heap u v) (s : Bytes) :
    encode f heap u = .ok s ↔ finite f v = true ∧ s = write f (ordered v) := by
  constructor
  · intro hs
    obtain ⟨w,hw,rfl⟩ := unfolds_of_encode f heap ∅ u s hs
    have hv := finite_of_unfolds h hw
    exact ⟨hv,by rw [unfolds_unique hw (unfolds_held h hv)]⟩
  · rintro ⟨hv,rfl⟩
    exact encode_of_unfolds (unfolds_held h hv) ∅ (fun u hu => absurd hu (Finset.notMem_empty u))

/-- What was decoded can be encoded exactly if its numbers are finite. The text has its keys in
order, and is decoded to that unless it is a bare number with an exponent or has a string that is
misread. -/
theorem encode_decoded {nums : Numbers N} (hlaw : Faithful f nums) {u : LuaValue N n} {v : Value N}
    (h : Holds heap u v) :
    ((∃ s, encode f heap u = .ok s) ↔ finite f v = true) ∧
      ∀ s, encode f heap u = .ok s → s = write f (ordered v) ∧
        (JsonAcceptance.decode nums s = .ok (ordered v) ↔
          exponential f (ordered v) = false ∧ clear (ordered v) = true) ∧
        ∀ (k : ℕ) (heap' : Heap N k) (u' : LuaValue N k), Holds heap' u' (ordered v) →
          encode f heap' u' = .ok s := by
  refine ⟨⟨fun ⟨s,hs⟩ => ((encode_held h s).mp hs).1,fun hv =>
      ⟨_,(encode_held h _).mpr ⟨hv,rfl⟩⟩⟩,?_⟩
  intro s hs
  obtain ⟨hv,rfl⟩ := (encode_held h s).mp hs
  have hunfolds := unfolds_held h hv
  refine ⟨rfl,?_,fun k heap' u' h' => (encode_held h' _).mpr ⟨(finite_ordered f v).mpr hv,?_⟩⟩
  · rw [decode_written hlaw hunfolds, ← received_iff hunfolds, eq_comm (a := ordered v)]
  · rw [ordered_ordered]

theorem seqTable_holds : Holds seqTable (.table 0) (.object [(text "seq",.number 7)]) :=
  .object 0 [(text "seq",.number 7,.number 7)] rfl (List.Perm.refl _)
    (List.forall_mem_singleton.mpr (.number 7))

theorem encode_decoded_seq :
    ((∃ s, encode naturalFormats seqTable (.table 0) = .ok s) ↔
        finite naturalFormats (.object [(text "seq",.number 7)]) = true) ∧
      ∀ s, encode naturalFormats seqTable (.table 0) = .ok s →
        s = write naturalFormats (ordered (.object [(text "seq",.number 7)])) ∧
        (JsonAcceptance.decode naturalNumbers s = .ok (ordered (.object [(text "seq",.number 7)])) ↔
          exponential naturalFormats (ordered (.object [(text "seq",.number 7)])) = false ∧
            clear (ordered (.object [(text "seq",.number (7 : ℕ))])) = true) ∧
        ∀ (k : ℕ) (heap' : Heap ℕ k) (u' : LuaValue ℕ k),
          Holds heap' u' (ordered (.object [(text "seq",.number 7)])) →
            encode naturalFormats heap' u' = .ok s :=
  encode_decoded naturals_faithful seqTable_holds

end Heap

end Vecoda.DecodedTables

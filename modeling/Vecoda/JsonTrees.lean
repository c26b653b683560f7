import Vecoda.JsonEncode

/-!
# What json.lua encodes

A value of the heap unfolds to a tree where its tables are the objects and the
sparse arrays of trees. `json.encode` succeeds exactly on the values that
unfold, and writes the tree; on all others, cycles among them, it raises.
-/

set_option autoImplicit false

namespace Vecoda.JsonTrees
open MessagePipe LuaText JsonGrammar JsonStrings JsonEncode

section Shapes

variable {N : Type} {n : ℕ}

/-- The table has string keys only, and these are its entries in their order. -/
structure ObjectOf (t : Table N n) (es : List (Bytes × LuaValue N n)) : Prop where
  perm : t.entries.Perm (es.map (fun e => (Key.string e.1,e.2)))
  sorted : (es.map Prod.fst).Pairwise (fun a b => keyLe a b = true)

/-- The keys of the table are positive integers, and these are its values up to the last,
those that are missing nil. -/
structure ArrayOf (t : Table N n) (us : List (LuaValue N n)) : Prop where
  keys : ∀ e ∈ t.entries, ∃ i < us.length, e.1 = .integer ((i : ℕ) + 1)
  values : us = (List.range us.length).map (fun (i : ℕ) => t.get (.integer (i + 1)))
  last : us.getLast? ≠ some .nil

variable (f : Formats N) (heap : Heap N n)

mutual
inductive Unfolds : LuaValue N n → Value N → Prop
  | nil : Unfolds .nil .null
  | null : Unfolds .null .null
  | boolean (b : Bool) : Unfolds (.boolean b) (.boolean b)
  | number (x : N) (hx : f.finite x = true) : Unfolds (.number x) (.number x)
  | string (s : Bytes) : Unfolds (.string s) (.string s)
  | empty (t : Fin n) (h : (heap t).entries = []) :
      Unfolds (.table t) (if (heap t).objectMt then .object [] else .array [])
  | object (t : Fin n) (es : List (Bytes × LuaValue N n)) (vs : List (Value N)) (hne : es ≠ [])
      (h : ObjectOf (heap t) es) (hvs : UnfoldsAll (es.map Prod.snd) vs) :
      Unfolds (.table t) (.object ((es.map Prod.fst).zip vs))
  | array (t : Fin n) (us : List (LuaValue N n)) (vs : List (Value N)) (hne : us ≠ [])
      (h : ArrayOf (heap t) us) (hvs : UnfoldsAll us vs) : Unfolds (.table t) (.array vs)

inductive UnfoldsAll : List (LuaValue N n) → List (Value N) → Prop
  | nil : UnfoldsAll [] []
  | cons (u : LuaValue N n) (v : Value N) (us : List (LuaValue N n)) (vs : List (Value N))
      (h : Unfolds u v) (hs : UnfoldsAll us vs) : UnfoldsAll (u::us) (v::vs)
end

end Shapes

section Entries

variable {N : Type} {n : ℕ} (t : Table N n)

theorem get_entry (e : Key × LuaValue N n) (he : e ∈ t.entries) : t.get e.1 = e.2 := by
  have hd := t.distinct
  rw [Table.get]
  revert he hd
  generalize t.entries = es
  intro he hd
  induction es with
  | nil => cases he
  | cons a es ih =>
    obtain ⟨ha,hs⟩ := List.nodup_cons.mp hd
    rcases List.mem_cons.mp he with rfl | he
    · rw [List.lookup_cons_self, Option.getD_some]
    · have hne : e.1 ≠ a.1 := by
        intro h
        exact ha (h ▸ List.mem_map_of_mem he)
      rw [List.lookup_cons, beq_false_of_ne hne]
      exact ih he hs

theorem entries_get : t.entries = (t.entries.map Prod.fst).map (fun k => (k,t.get k)) := by
  rw [List.map_map]
  conv_lhs => rw [← List.map_id t.entries]
  exact List.map_congr_left (fun e he => by simp [get_entry t e he])

theorem mem_of_get {k : Key} (h : t.get k ≠ .nil) : ∃ e ∈ t.entries, e.1 = k := by
  rw [Table.get] at h
  cases hl : t.entries.lookup k with
  | none => rw [hl] at h; exact absurd rfl h
  | some v =>
    obtain ⟨l,l',he,-⟩ := List.lookup_eq_some_iff.mp hl
    exact ⟨(k,v),by simp [he],rfl⟩

theorem stringKeys_iff (es : List (Key × LuaValue N n)) (keys : List Bytes) :
    stringKeys es = .ok keys ↔ es.map Prod.fst = keys.map Key.string := by
  induction es generalizing keys with
  | nil => cases keys <;> simp [stringKeys]
  | cons e es ih =>
    obtain ⟨k,v⟩ := e
    cases k with
    | string s =>
      cases keys with
      | nil =>
        rw [stringKeys]
        cases stringKeys es <;> simp [Except.map]
      | cons key keys =>
        rw [stringKeys, List.map_cons, List.map_cons, List.cons.injEq, ← ih keys]
        cases stringKeys es <;> simp [Except.map]
    | _ => cases keys <;> simp [stringKeys]

theorem maxKey_sound (es : List (Key × LuaValue N n)) (m r : ℕ) (h : maxKey m es = .ok r) :
    m ≤ r ∧ (∀ e ∈ es, ∃ i < r, e.1 = .integer ((i : ℕ) + 1)) ∧
      (r = m ∨ ∃ e ∈ es, e.1 = .integer r) := by
  induction es generalizing m with
  | nil =>
    injection h with h
    subst h
    exact ⟨le_rfl,nofun,.inl rfl⟩
  | cons e es ih =>
    obtain ⟨k,v⟩ := e
    cases k with
    | integer k =>
      rw [maxKey] at h
      split at h
      · cases h
      · next hk =>
        obtain ⟨hle,hkeys,hmax⟩ := ih _ h
        have hbound : m ≤ (if (m : ℤ) < k then k.toNat else m) ∧
            k ≤ ((if (m : ℤ) < k then k.toNat else m : ℕ) : ℤ) := by
          split <;> omega
        refine ⟨by omega,?_,?_⟩
        · intro e he
          rcases List.mem_cons.mp he with rfl | he
          · exact ⟨k.toNat - 1,by omega,congrArg Key.integer (by omega)⟩
          · exact hkeys e he
        · rcases hmax with hr | ⟨e,he,hr⟩
          · split at hr
            · exact .inr ⟨_,List.mem_cons_self,congrArg Key.integer (by omega)⟩
            · exact .inl hr
          · exact .inr ⟨e,List.mem_cons_of_mem _ he,hr⟩
    | _ => cases h

theorem maxKey_complete (es : List (Key × LuaValue N n)) (m b : ℕ)
    (h : ∀ e ∈ es, ∃ i < b, e.1 = .integer ((i : ℕ) + 1)) : ∃ r, maxKey m es = .ok r := by
  induction es generalizing m with
  | nil => exact ⟨m,rfl⟩
  | cons e es ih =>
    obtain ⟨k,v⟩ := e
    obtain ⟨i,hi,hk⟩ := h _ List.mem_cons_self
    simp only at hk
    subst hk
    rw [maxKey, if_neg (by omega)]
    exact ih _ (fun e he => h e (List.mem_cons_of_mem _ he))

theorem keyLe_trans (a b c : Bytes) (hab : keyLe a b = true) (hbc : keyLe b c = true) :
    keyLe a c = true := by
  simp only [keyLe, decide_eq_true_eq] at *
  exact le_trans hab hbc

theorem keyLe_total (a b : Bytes) : (keyLe a b || keyLe b a) = true := by
  simp only [keyLe, Bool.or_eq_true, decide_eq_true_eq]
  exact le_total _ _

theorem keyLe_antisymm (a b : Bytes) (hab : keyLe a b = true) (hba : keyLe b a = true) : a = b := by
  simp only [keyLe, decide_eq_true_eq] at *
  exact List.map_injective_iff.mpr (fun _ _ => UInt8.toNat_inj.mp) (le_antisymm hab hba)

theorem separated_map {α β : Type} (first next : Bytes) (g : α → β) (l : List α) :
    separated first next (l.map g) = (separated first next l).map (fun p => (p.1,g p.2)) := by
  cases l with
  | nil => rfl
  | cons a l => simp [separated, Function.comp_def]

def objectTexts (es : List (Bytes × LuaValue N n)) : List (Bytes × LuaValue N n) :=
  (separated (text "\x7b") (text ",") es).map (fun p =>
    (p.1 ++ quoted (encodeString p.2.1) ++ text ":",p.2.2))

def arrayTexts (us : List (LuaValue N n)) : List (Bytes × LuaValue N n) :=
  separated (text "[") (text ",") us

theorem objectPieces_eq (keys : List Bytes) : objectPieces t keys =
    objectTexts ((keys.mergeSort keyLe).map (fun k => (k,t.get (.string k)))) := by
  rw [objectTexts, separated_map, List.map_map]
  rfl

variable {t}

theorem object_keys {es : List (Bytes × LuaValue N n)} (h : ObjectOf t es) :
    ∃ keys : List Bytes, t.entries.map Prod.fst = keys.map Key.string ∧ keys.mergeSort keyLe = es.map Prod.fst := by
  have hperm : (t.entries.map Prod.fst).Perm ((es.map Prod.fst).map Key.string) := by
    have := h.perm.map Prod.fst
    simpa [Function.comp_def] using this
  have hall : ∀ k ∈ t.entries.map Prod.fst, ∃ s, Key.string s = k := by
    intro k hk
    obtain ⟨s,-,hs⟩ := List.mem_map.mp (hperm.subset hk)
    exact ⟨s,hs⟩
  obtain ⟨keys,hkeys⟩ : ∃ keys : List Bytes, keys.map Key.string = t.entries.map Prod.fst := by
    revert hall
    generalize t.entries.map Prod.fst = ks
    intro hall
    induction ks with
    | nil => exact ⟨[],rfl⟩
    | cons k ks ih =>
      obtain ⟨s,hs⟩ := hall k List.mem_cons_self
      obtain ⟨keys,hk⟩ := ih (fun k hk => hall k (List.mem_cons_of_mem _ hk))
      exact ⟨s::keys,by rw [List.map_cons, hs, hk]⟩
  have hp : keys.Perm (es.map Prod.fst) := by
    rw [← hkeys] at hperm
    exact (List.map_perm_map_iff (fun a b hab => by injection hab)).mp hperm
  refine ⟨keys,hkeys.symm,?_⟩
  exact List.Perm.eq_of_pairwise (fun a b _ _ => keyLe_antisymm a b)
    (List.pairwise_mergeSort keyLe_trans keyLe_total keys) h.sorted
    ((List.mergeSort_perm keys keyLe).trans hp)

theorem object_get {es : List (Bytes × LuaValue N n)} (h : ObjectOf t es) :
    (es.map Prod.fst).map (fun k => (k,t.get (.string k))) = es := by
  rw [List.map_map]
  conv_rhs => rw [← List.map_id es]
  refine List.map_congr_left (fun e he => ?_)
  have hm : (Key.string e.1,e.2) ∈ t.entries :=
    h.perm.symm.subset (List.mem_map.mpr ⟨e,he,rfl⟩)
  have hg := get_entry t _ hm
  simp only at hg
  simp [hg]

theorem pieces_object {es : List (Bytes × LuaValue N n)} (hne : es ≠ []) (h : ObjectOf t es) :
    pieces t = .ok (objectTexts es,text "\x7d") := by
  obtain ⟨keys,hkeys,hsort⟩ := object_keys h
  have hstring := (stringKeys_iff t.entries keys).mpr hkeys
  have hpieces : objectPieces t keys = objectTexts es := by
    rw [objectPieces_eq, hsort, object_get h]
  rw [pieces]
  split
  · rw [hstring, ← hpieces]
    rfl
  · next hfirst =>
    obtain ⟨k,v,rest,he⟩ : ∃ k v rest, t.entries = (Key.string k,v)::rest := by
      cases he : t.entries with
      | nil =>
        have := h.perm
        rw [he] at this
        exact absurd (List.map_eq_nil_iff.mp this.nil_eq.symm) hne
      | cons e rest =>
        rw [he] at hkeys
        cases keys with
        | nil => cases hkeys
        | cons key keys =>
          injection hkeys with hk
          exact ⟨key,e.2,rest,by rw [← hk]⟩
    exact absurd he (hfirst k v rest)

theorem array_last {us : List (LuaValue N n)} (hne : us ≠ []) (h : ArrayOf t us) :
    t.get (.integer us.length) ≠ .nil := by
  obtain ⟨m,hm⟩ : ∃ m, us.length = m + 1 :=
    Nat.exists_eq_succ_of_ne_zero (fun hz => hne (List.length_eq_zero_iff.mp hz))
  have hl := h.last
  rw [h.values, hm, List.range_succ, List.map_append, List.getLast?_append_of_ne_nil _ (by simp)] at hl
  rw [hm]
  simpa using hl

theorem pieces_array {us : List (LuaValue N n)} (hne : us ≠ []) (h : ArrayOf t us) :
    pieces t = .ok (arrayTexts us,text "]") := by
  obtain ⟨r,hr⟩ := maxKey_complete t.entries 0 us.length h.keys
  obtain ⟨hle,hkeys,hmax⟩ := maxKey_sound t.entries 0 r hr
  obtain ⟨e,he,hlast⟩ := mem_of_get t (array_last hne h)
  have hlen : r = us.length := by
    apply le_antisymm
    · rcases hmax with h0 | ⟨e',he',hk⟩
      · omega
      · obtain ⟨i,hi,hk'⟩ := h.keys e' he'
        have := hk.symm.trans hk'
        injection this with this
        omega
    · obtain ⟨i,hi,hk⟩ := hkeys e he
      have := hlast.symm.trans hk
      injection this with this
      omega
  rw [pieces]
  split
  · next k v rest hfirst =>
    obtain ⟨i,hi,hk⟩ := h.keys (Key.string k,v) (by rw [hfirst]; exact List.mem_cons_self)
    cases hk
  · rw [hr, hlen, arrayTexts]
    conv_rhs => rw [h.values]
    rfl

theorem pieces_sound (hne : t.entries ≠ []) (r : List (Bytes × LuaValue N n) × Bytes)
    (h : pieces t = .ok r) :
    (∃ es, es ≠ [] ∧ ObjectOf t es ∧ r = (objectTexts es,text "\x7d")) ∨
      ∃ us, us ≠ [] ∧ ArrayOf t us ∧ r = (arrayTexts us,text "]") := by
  rw [pieces] at h
  split at h
  · left
    obtain ⟨keys,hk,rfl⟩ := JsonScanning.map_ok h
    have hfst := (stringKeys_iff t.entries keys).mp hk
    refine ⟨(keys.mergeSort keyLe).map (fun k => (k,t.get (.string k))),?_,⟨?_,?_⟩,?_⟩
    · intro hnil
      have hkeys : keys = [] := by
        have := List.map_eq_nil_iff.mp hnil
        exact List.length_eq_zero_iff.mp (by rw [← List.length_mergeSort keys, this]; rfl)
      rw [hkeys] at hfst
      exact hne (List.map_eq_nil_iff.mp hfst)
    · rw [entries_get t, hfst, List.map_map, List.map_map]
      exact ((List.mergeSort_perm keys keyLe).map _).symm
    · rw [List.map_map]
      simpa [Function.comp_def] using List.pairwise_mergeSort keyLe_trans keyLe_total keys
    · rw [objectPieces_eq]
  · right
    obtain ⟨m,hm,rfl⟩ := JsonScanning.map_ok h
    obtain ⟨-,hkeys,hmax⟩ := maxKey_sound t.entries 0 m hm
    obtain ⟨e,he⟩ := List.exists_mem_of_ne_nil _ hne
    obtain ⟨i,hi,-⟩ := hkeys e he
    have hlen : ((List.range m).map (fun (i : ℕ) => t.get (.integer (i + 1)))).length = m := by simp
    refine ⟨(List.range m).map (fun (i : ℕ) => t.get (.integer (i + 1))),?_,⟨?_,?_,?_⟩,rfl⟩
    · intro hnil
      rw [hnil] at hlen
      exact absurd hlen.symm (by simpa using (by omega : m ≠ 0))
    · rw [hlen]
      exact hkeys
    · rw [hlen]
    · rcases hmax with h0 | ⟨e',he',hk⟩
      · omega
      · obtain ⟨k,rfl⟩ : ∃ k, m = k + 1 := ⟨m - 1,by omega⟩
        rw [List.range_succ, List.map_append, List.getLast?_append_of_ne_nil _ (by simp)]
        have hg := get_entry t e' he'
        rw [hk] at hg
        push_cast at hg
        simpa [hg] using t.present e' he'

theorem object_unique {es es' : List (Bytes × LuaValue N n)} (h : ObjectOf t es) (h' : ObjectOf t es') :
    es = es' := by
  have hfst {es : List (Bytes × LuaValue N n)} (h : ObjectOf t es) :
      (t.entries.map Prod.fst).Perm ((es.map Prod.fst).map Key.string) := by
    have := h.perm.map Prod.fst
    simpa [Function.comp_def] using this
  have hkeys : (es.map Prod.fst).Perm (es'.map Prod.fst) :=
    (List.map_perm_map_iff (fun a b hab => by injection hab)).mp ((hfst h).symm.trans (hfst h'))
  have heq : es.map Prod.fst = es'.map Prod.fst :=
    List.Perm.eq_of_pairwise (fun a b _ _ => keyLe_antisymm a b) h.sorted h'.sorted hkeys
  rw [← object_get h, heq, object_get h']

theorem array_unique {us us' : List (LuaValue N n)} (hne : us ≠ []) (hne' : us' ≠ [])
    (h : ArrayOf t us) (h' : ArrayOf t us') : us = us' := by
  have hle {us us' : List (LuaValue N n)} (hne : us ≠ []) (h : ArrayOf t us) (h' : ArrayOf t us') :
      us.length ≤ us'.length := by
    obtain ⟨e,he,hlast⟩ := mem_of_get t (array_last hne h)
    obtain ⟨i,hi,hk⟩ := h'.keys e he
    have := hlast.symm.trans hk
    injection this with this
    omega
  have hlen := le_antisymm (hle hne h h') (hle hne' h' h)
  rw [h.values, h'.values, hlen]

theorem object_entries {es : List (Bytes × LuaValue N n)} (hne : es ≠ []) (h : ObjectOf t es) :
    ∃ e ∈ t.entries, ∃ s, e.1 = .string s := by
  obtain ⟨e,he⟩ := List.exists_mem_of_ne_nil _ hne
  exact ⟨_,h.perm.symm.subset (List.mem_map_of_mem he),e.1,rfl⟩

theorem array_entries {us : List (LuaValue N n)} (hne : us ≠ []) (h : ArrayOf t us) : t.entries ≠ [] := by
  obtain ⟨e,he,-⟩ := mem_of_get t (array_last hne h)
  exact List.ne_nil_of_mem he

theorem object_not_array {es : List (Bytes × LuaValue N n)} {us : List (LuaValue N n)} (hne : es ≠ [])
    (h : ObjectOf t es) (h' : ArrayOf t us) : False := by
  obtain ⟨e,he,s,hs⟩ := object_entries hne h
  obtain ⟨i,-,hi⟩ := h'.keys e he
  rw [hs] at hi
  cases hi

end Entries

section Writing

variable {N : Type} {n : ℕ} (f : Formats N)

def joined : List Bytes → List (Value N) → Bytes
  | before::befores, v::vs => before ++ write f v ++ joined befores vs
  | _, _ => []

theorem joined_items (us : List (LuaValue N n)) (vs : List (Value N)) (h : us.length = vs.length) :
    joined f (us.map (fun _ => text ",")) vs = writeItems f vs := by
  induction us generalizing vs with
  | nil =>
    cases vs with
    | nil => rw [writeItems]; rfl
    | cons v vs => cases h
  | cons u us ih =>
    cases vs with
    | nil => cases h
    | cons v vs => rw [List.map_cons, joined, ih vs (by simpa using h), writeItems]

theorem write_array {us : List (LuaValue N n)} {vs : List (Value N)} (hne : us ≠ [])
    (h : us.length = vs.length) :
    joined f ((arrayTexts us).map Prod.fst) vs ++ text "]" = write f (.array vs) := by
  cases us with
  | nil => exact absurd rfl hne
  | cons u us =>
    cases vs with
    | nil => cases h
    | cons v vs =>
      have hs := joined_items f us vs (by simpa using h)
      rw [arrayTexts, separated, List.map_cons, List.map_map, joined, write]
      rw [Function.comp_def, hs]

theorem joined_entries (es : List (Bytes × LuaValue N n)) (vs : List (Value N))
    (h : es.length = vs.length) :
    joined f (es.map (fun e => text "," ++ quoted (encodeString e.1) ++ text ":")) vs =
      writeEntries f ((es.map Prod.fst).zip vs) := by
  induction es generalizing vs with
  | nil => rw [List.map_nil, List.map_nil, List.zip_nil_left, joined.eq_def, writeEntries]
  | cons e es ih =>
    cases vs with
    | nil => cases h
    | cons v vs =>
      rw [List.map_cons, joined, ih vs (by simpa using h), List.map_cons, List.zip_cons_cons,
        writeEntries]

theorem write_object {es : List (Bytes × LuaValue N n)} {vs : List (Value N)} (hne : es ≠ [])
    (h : es.length = vs.length) :
    joined f ((objectTexts es).map Prod.fst) vs ++ text "\x7d" =
      write f (.object ((es.map Prod.fst).zip vs)) := by
  cases es with
  | nil => exact absurd rfl hne
  | cons e es =>
    cases vs with
    | nil => cases h
    | cons v vs =>
      have hs := joined_entries f es vs (by simpa using h)
      rw [objectTexts, separated, List.map_cons, List.map_map, List.map_cons, List.map_map, joined,
        List.map_cons, List.zip_cons_cons, write]
      rw [Function.comp_def, Function.comp_def, hs]

end Writing

section Results

variable {N : Type} {n : ℕ} {f : Formats N} {heap : Heap N n}

theorem unfoldsAll_length : ∀ {us : List (LuaValue N n)} {vs : List (Value N)},
    UnfoldsAll f heap us vs → us.length = vs.length
  | _, _, .nil => rfl
  | _, _, .cons u v us vs h hs => by rw [List.length_cons, List.length_cons, unfoldsAll_length hs]

mutual
theorem unfolds_unique : ∀ {v : LuaValue N n} {w w' : Value N}, Unfolds f heap v w →
    Unfolds f heap v w' → w = w'
  | _, _, _, .nil, h => by cases h; rfl
  | _, _, _, .null, h => by cases h; rfl
  | _, _, _, .boolean b, h => by cases h; rfl
  | _, _, _, .number x hx, h => by cases h; rfl
  | _, _, _, .string s, h => by cases h; rfl
  | _, _, _, .empty t he, h => by
    cases h with
    | empty => rfl
    | object _ es vs hne ho =>
      obtain ⟨e,hm,-⟩ := object_entries hne ho
      rw [he] at hm
      cases hm
    | array _ us vs hne ha => exact absurd he (array_entries hne ha)
  | _, _, _, .object t es vs hne ho hvs, h => by
    cases h with
    | empty _ he =>
      obtain ⟨e,hm,-⟩ := object_entries hne ho
      rw [he] at hm
      cases hm
    | object _ es' vs' hne' ho' hvs' =>
      have := object_unique ho ho'
      subst this
      rw [unfoldsAll_unique hvs hvs']
    | array _ us vs' hne' ha => exact (object_not_array hne ho ha).elim
  | _, _, _, .array t us vs hne ha hvs, h => by
    cases h with
    | empty _ he => exact absurd he (array_entries hne ha)
    | object _ es vs' hne' ho => exact (object_not_array hne' ho ha).elim
    | array _ us' vs' hne' ha' hvs' =>
      have := array_unique hne hne' ha ha'
      subst this
      rw [unfoldsAll_unique hvs hvs']

theorem unfoldsAll_unique : ∀ {us : List (LuaValue N n)} {vs vs' : List (Value N)},
    UnfoldsAll f heap us vs → UnfoldsAll f heap us vs' → vs = vs'
  | _, _, _, .nil, h => by cases h; rfl
  | _, _, _, .cons u v us vs h hs, h' => by
    cases h' with
    | cons _ v' _ vs' hv hvs => rw [unfolds_unique h hv, unfoldsAll_unique hs hvs]
end

theorem texts_values (es : List (Bytes × LuaValue N n)) :
    (objectTexts es).map Prod.snd = es.map Prod.snd := by
  cases es with
  | nil => rfl
  | cons e es => simp [objectTexts, separated, Function.comp_def]

theorem texts_items (us : List (LuaValue N n)) : (arrayTexts us).map Prod.snd = us := by
  cases us with
  | nil => rfl
  | cons u us => simp [arrayTexts, separated, Function.comp_def]

variable (f heap)

mutual
theorem unfolds_of_encode (visited : Finset (Fin n)) (v : LuaValue N n) (s : Bytes)
    (h : encodeValue f heap visited v = .ok s) : ∃ w, Unfolds f heap v w ∧ s = write f w := by
  rw [encodeValue.eq_def] at h
  cases v with
  | nil => injection h with h; exact ⟨.null,.nil,by rw [← h, write]⟩
  | null => injection h with h; exact ⟨.null,.null,by rw [← h, write]⟩
  | boolean b => injection h with h; exact ⟨.boolean b,.boolean b,by rw [← h, write]⟩
  | string t => injection h with h; exact ⟨.string t,.string t,by rw [← h, write]⟩
  | unexpected type => cases h
  | number x =>
    by_cases hx : f.finite x = true
    · simp only [hx, if_true] at h
      injection h with h
      exact ⟨.number x,.number x hx,by rw [← h, write]⟩
    · simp only [hx] at h
      cases h
  | table t =>
    by_cases he : (heap t).entries = []
    · simp only [he, List.isEmpty_nil, if_true] at h
      injection h with h
      refine ⟨_,.empty t he,?_⟩
      rw [← h]
      cases (heap t).objectMt <;> simp [write]
    · have hne : (heap t).entries.isEmpty = false := by simpa using he
      by_cases hv : t ∈ visited
      · simp only [hne, hv, Bool.false_eq_true, if_false, dif_pos] at h
        cases h
      · simp only [hne, hv, Bool.false_eq_true, if_false, dif_neg, not_false_eq_true] at h
        cases hp : pieces (heap t) with
        | error e => rw [hp] at h; cases h
        | ok r =>
          obtain ⟨ps,closing⟩ := r
          rw [hp] at h
          obtain ⟨body,hb,rfl⟩ := JsonScanning.map_ok h
          obtain ⟨ws,hws,rfl⟩ := unfoldsAll_of_encode (insert t visited) ps body hb
          rcases pieces_sound he _ hp with ⟨es,hes,ho,hr⟩ | ⟨us,hus,ha,hr⟩
          · injection hr with hps hc
            subst hps hc
            rw [texts_values] at hws
            have hlen : es.length = ws.length := by simpa using unfoldsAll_length hws
            exact ⟨_,.object t es ws hes ho hws,write_object f hes hlen⟩
          · injection hr with hps hc
            subst hps hc
            rw [texts_items] at hws
            exact ⟨_,.array t us ws hus ha hws,write_array f hus (unfoldsAll_length hws)⟩
termination_by (n - visited.card,0)
decreasing_by
  have := Finset.card_insert_of_notMem hv
  have := Finset.card_le_univ (insert t visited)
  rw [Fintype.card_fin] at this
  exact Prod.Lex.left _ _ (by omega)

theorem unfoldsAll_of_encode (visited : Finset (Fin n)) (ps : List (Bytes × LuaValue N n)) (s : Bytes)
    (h : encodePieces f heap visited ps = .ok s) :
    ∃ ws, UnfoldsAll f heap (ps.map Prod.snd) ws ∧ s = joined f (ps.map Prod.fst) ws := by
  rw [encodePieces.eq_def] at h
  cases ps with
  | nil =>
    injection h with h
    exact ⟨[],.nil,h.symm⟩
  | cons p ps =>
    obtain ⟨before,v⟩ := p
    simp only at h
    cases hv : encodeValue f heap visited v with
    | error e => rw [hv] at h; cases h
    | ok s₁ =>
      rw [hv] at h
      obtain ⟨s₂,hs₂,rfl⟩ := JsonScanning.map_ok h
      obtain ⟨w,hw,rfl⟩ := unfolds_of_encode visited v s₁ hv
      obtain ⟨ws,hws,rfl⟩ := unfoldsAll_of_encode visited ps s₂ hs₂
      exact ⟨w::ws,.cons v w _ ws hw hws,rfl⟩
termination_by (n - visited.card,ps.length + 1)
end

/-- The tables that are being encoded hold the tree. -/
def Around (visited : Finset (Fin n)) (w : Value N) : Prop :=
  ∀ u ∈ visited, ∀ w', Unfolds f heap (.table u) w' → sizeOf w < sizeOf w'

variable {f heap}

theorem around_child {visited : Finset (Fin n)} {t : Fin n} {w child : Value N}
    (ht : Unfolds f heap (.table t) w) (h : Around f heap visited w) (hlt : sizeOf child < sizeOf w) :
    Around f heap (insert t visited) child := by
  intro u hu w' hw'
  rcases Finset.mem_insert.mp hu with rfl | hu
  · rw [← unfolds_unique ht hw']
    exact hlt
  · exact hlt.trans (h u hu w' hw')

theorem size_item {vs : List (Value N)} {w : Value N} (h : w ∈ vs) :
    sizeOf w < sizeOf (Value.array vs) := by
  have := List.sizeOf_lt_of_mem h
  rw [Value.array.sizeOf_spec]
  omega

theorem size_entry {keys : List Bytes} {vs : List (Value N)} (hlen : keys.length = vs.length)
    {w : Value N} (h : w ∈ vs) : sizeOf w < sizeOf (Value.object (keys.zip vs)) := by
  obtain ⟨k,hk⟩ : ∃ k, (k,w) ∈ keys.zip vs := by
    have hsnd : (keys.zip vs).map Prod.snd = vs := List.map_snd_zip (by omega)
    rw [← hsnd] at h
    obtain ⟨p,hp,rfl⟩ := List.mem_map.mp h
    exact ⟨p.1,hp⟩
  have := List.sizeOf_lt_of_mem hk
  rw [Prod.mk.sizeOf_spec] at this
  rw [Value.object.sizeOf_spec]
  omega

theorem encode_table {visited : Finset (Fin n)} {t : Fin n} {w : Value N}
    {ps : List (Bytes × LuaValue N n)} {closing body : Bytes} (hne : (heap t).entries ≠ [])
    (ht : Unfolds f heap (.table t) w) (hv : Around f heap visited w)
    (hp : pieces (heap t) = .ok (ps,closing))
    (hb : encodePieces f heap (insert t visited) ps = .ok body) :
    encodeValue f heap visited (.table t) = .ok (body ++ closing) := by
  have he : (heap t).entries.isEmpty = false := by simpa using hne
  have hnot : t ∉ visited := fun hm => lt_irrefl _ (hv t hm w ht)
  rw [encodeValue.eq_def]
  simp only [he, hnot, Bool.false_eq_true, if_false, dif_neg, not_false_eq_true, hp, hb]
  rfl

mutual
theorem encode_of_unfolds : ∀ {v : LuaValue N n} {w : Value N}, Unfolds f heap v w →
    ∀ visited, Around f heap visited w → encodeValue f heap visited v = .ok (write f w)
  | _, _, .nil, _, _ => by rw [encodeValue.eq_def, write]
  | _, _, .null, _, _ => by rw [encodeValue.eq_def, write]
  | _, _, .boolean b, _, _ => by rw [encodeValue.eq_def, write]
  | _, _, .number x hx, _, _ => by rw [encodeValue.eq_def, write]; exact if_pos hx
  | _, _, .string s, _, _ => by rw [encodeValue.eq_def, write]
  | _, _, .empty t he, visited, _ => by
    rw [encodeValue.eq_def]
    simp only [he, List.isEmpty_nil, if_true]
    cases (heap t).objectMt <;> simp [write]
  | _, _, .object t es vs hne ho hvs, visited, hv => by
    have hlen : es.length = vs.length := by simpa using unfoldsAll_length hvs
    obtain ⟨e,hm,-⟩ := object_entries hne ho
    have hbody := encodeAll_of_unfolds hvs (insert t visited)
      (fun w hw => around_child (.object t es vs hne ho hvs) hv (size_entry (by simpa using hlen) hw))
      (objectTexts es) (texts_values es)
    rw [encode_table (List.ne_nil_of_mem hm) (.object t es vs hne ho hvs) hv (pieces_object hne ho) hbody,
      write_object f hne hlen]
  | _, _, .array t us vs hne ha hvs, visited, hv => by
    have hbody := encodeAll_of_unfolds hvs (insert t visited)
      (fun w hw => around_child (.array t us vs hne ha hvs) hv (size_item hw)) (arrayTexts us)
      (texts_items us)
    rw [encode_table (array_entries hne ha) (.array t us vs hne ha hvs) hv (pieces_array hne ha) hbody,
      write_array f hne (unfoldsAll_length hvs)]

theorem encodeAll_of_unfolds : ∀ {us : List (LuaValue N n)} {ws : List (Value N)},
    UnfoldsAll f heap us ws → ∀ visited, (∀ w ∈ ws, Around f heap visited w) →
    ∀ ps : List (Bytes × LuaValue N n), ps.map Prod.snd = us →
      encodePieces f heap visited ps = .ok (joined f (ps.map Prod.fst) ws)
  | _, _, .nil, _, _, ps, hps => by
    rw [List.map_eq_nil_iff.mp hps, encodePieces.eq_def]
    rfl
  | _, _, .cons u w us ws h hs, visited, hv, ps, hps => by
    cases ps with
    | nil => cases hps
    | cons p ps =>
      obtain ⟨before,v⟩ := p
      injection hps with hv' hps
      rw [encodePieces.eq_def]
      simp only at hv'
      simp only [hv', encode_of_unfolds h visited (hv w List.mem_cons_self),
        encodeAll_of_unfolds hs visited (fun w' hw' => hv w' (List.mem_cons_of_mem _ hw')) ps hps]
      rfl
end

/-- `json.encode` writes the tree of a value and raises where there is none. -/
theorem encode_ok_iff (v : LuaValue N n) (s : Bytes) :
    encode f heap v = .ok s ↔ ∃ w, Unfolds f heap v w ∧ s = write f w := by
  constructor
  · exact unfolds_of_encode f heap ∅ v s
  · rintro ⟨w,hw,rfl⟩
    exact encode_of_unfolds hw ∅ (fun u hu => absurd hu (Finset.notMem_empty u))

end Results

end Vecoda.JsonTrees

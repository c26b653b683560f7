import Vecoda.PathBreakpoints

/-!
# The path a script is kept under

A relative name is joined with the directory of the debugged program, an
absolute one is taken as it stands. The canonical path has one separator
between two names, no `.` and no `..`; a drive, and a server with its share, is
not left by `..`. What is absolute and what exists is a parameter.
-/

set_option autoImplicit false

namespace Vecoda.CanonicalPaths
open MessagePipe LuaText Breakpoints BreakpointSync Files PathBreakpoints Transitions

def separator : UInt8 := byte '\\'

/-- bee.filesystem on Windows: an absolute path has a root name, which is a drive or
begins with two separators. -/
structure Windows where
  absolute : Bytes → Bool
  found : Bytes → Bool
  rooted : ∀ s, absolute s = true →
    (∃ c t, c ≠ separator ∧ s = c::byte ':'::separator::t) ∨ ∃ t, s = separator::separator::t

def Windows.fileSystem (w : Windows) : FileSystem :=
  ⟨fun s => .ok (w.absolute s),fun s => .ok (w.found s)⟩

section Canonical

def Names (p : Bytes) : Prop := p ≠ [] ∧ p ≠ text "." ∧ p ≠ text ".."

instance (p : Bytes) : Decidable (Names p) := inferInstanceAs (Decidable (_ ∧ _ ∧ _))

def segments (s : Bytes) : List Bytes := (s.splitOn separator).filter (· ≠ [])

inductive Kind where
  | share
  | root
  | drive
  deriving DecidableEq

def kind (s : Bytes) : Kind :=
  if ∀ p ∈ segments s, ¬ Names p then .root
  else if [separator,separator].isPrefixOf s then .share
  else if [separator].isPrefixOf s then .root
  else .drive

def Kind.separators : Kind → ℕ
  | .share => 2
  | .root => 1
  | .drive => 0

def Kind.fixed : Kind → ℕ
  | .share => 2
  | .root => 0
  | .drive => 1

def volume : ℕ → List Bytes → List Bytes
  | 0, _ => []
  | _+1, [] => []
  | n+1, p::ps => if Names p then p::volume n ps else volume (n+1) ps

def beyond : ℕ → List Bytes → List Bytes
  | 0, ps => ps
  | _+1, [] => []
  | n+1, p::ps => if Names p then beyond n ps else beyond (n+1) ps

def located (dir : Bytes) (name : List Bytes) : List Bytes :=
  volume (kind dir).fixed (segments dir) ++ (beyond (kind dir).fixed (segments dir) ++ name).foldl push []

def assemble (k : Kind) (ps : List Bytes) : Bytes :=
  List.intercalate [separator] (List.replicate k.separators [] ++ ps)

def joined (dir : Bytes) (name : List Bytes) : Bytes := assemble (kind dir) (located dir name)

def canonical (w : Windows) (cwd : Option Bytes) (name : Bytes) : Bytes :=
  if w.absolute (backslashes name) then joined (backslashes name) []
  else joined (backslashes (cwd.getD [])) (segments (backslashes name))

end Canonical

section Condition

def Clean (s : Bytes) : Prop :=
  s.splitOn separator = List.replicate (kind s).separators [] ++ segments s ∧ ∀ p ∈ segments s, Names p

def level : ℕ → List Bytes → ℕ
  | d, [] => d
  | d, p::ps => level (if p = text "." then d else if p = text ".." then d-1 else d+1) ps

/-- No `..` of the walk climbs above its start. -/
def Stays : ℕ → List Bytes → Prop
  | _, [] => True
  | d, p::ps => (p = text ".." → 0 < d) ∧
    Stays (if p = text "." then d else if p = text ".." then d-1 else d+1) ps

def stripped (name : Bytes) : Bytes :=
  backslashes (if (text ".\\").isPrefixOf name then name.drop 2 else name)

/-- An absolute name is clean; a relative one does not look absolute behind `.\`, the
directory is clean, and the name ends below it without having left it (a drive, a
share or the root cannot be left). -/
def Spelled (w : Windows) (cwd : Option Bytes) (name : Bytes) : Prop :=
  if w.absolute (backslashes name) then Clean (backslashes name)
  else
    w.absolute (stripped name) = false ∧ Clean (backslashes (cwd.getD [])) ∧
    (Stays 0 (segments (stripped name)) ∨
      (segments (backslashes (cwd.getD []))).length ≤ (kind (backslashes (cwd.getD []))).fixed) ∧
    0 < level 0 (segments (stripped name))

end Condition

section Walk

theorem push_name (stash : List Bytes) {p : Bytes} (h : Names p) : push stash p = stash ++ [p] := by
  rw [push, if_neg h.2.1, if_neg h.2.2]

theorem push_names (stash ps : List Bytes) (h : ∀ p ∈ ps, Names p) : ps.foldl push stash = stash ++ ps := by
  induction ps generalizing stash with
  | nil => simp
  | cons p ps ih =>
    obtain ⟨hp,hps⟩ := List.forall_mem_cons.mp h
    rw [List.foldl_cons, push_name stash hp, ih _ hps, List.append_assoc, List.singleton_append]

theorem length_push (stash ps : List Bytes) : (ps.foldl push stash).length = level stash.length ps := by
  induction ps generalizing stash with
  | nil => rfl
  | cons p ps ih =>
    rw [List.foldl_cons, ih, level]
    congr 1
    unfold push
    split
    · rfl
    · split
      · exact List.length_dropLast
      · exact List.length_append

theorem level_le (d e : ℕ) (ps : List Bytes) : level (d+e) ps ≤ d+level e ps := by
  induction ps generalizing d e with
  | nil => exact le_rfl
  | cons p ps ih =>
    rw [level, level]
    by_cases hdot : p = text "."
    · rw [if_pos hdot, if_pos hdot]
      exact ih d e
    · rw [if_neg hdot, if_neg hdot]
      by_cases hup : p = text ".."
      · rw [if_pos hup, if_pos hup]
        by_cases he : 0 < e
        · rw [Nat.add_sub_assoc he]
          exact ih d (e-1)
        · have hz : e = 0 := Nat.eq_zero_of_not_pos he
          subst hz
          have := ih (d-1) 0
          rw [Nat.add_zero] at this ⊢
          rw [Nat.zero_sub]
          omega
      · rw [if_neg hup, if_neg hup, Nat.add_assoc]
        exact ih d (e+1)

/-- A walk that leaves its start ends higher when there is something above. -/
theorem stays_of_level (d e : ℕ) (ps : List Bytes) (hd : 0 < d) (h : level (d+e) ps = d+level e ps) :
    Stays e ps := by
  induction ps generalizing e with
  | nil => trivial
  | cons p ps ih =>
    rw [level, level] at h
    rw [Stays]
    by_cases hdot : p = text "."
    · rw [if_pos hdot, if_pos hdot] at h
      rw [if_pos hdot]
      exact ⟨fun hup => absurd (hdot.symm.trans hup) (by decide),ih e h⟩
    · rw [if_neg hdot, if_neg hdot] at h
      rw [if_neg hdot]
      by_cases hup : p = text ".."
      · rw [if_pos hup, if_pos hup] at h
        rw [if_pos hup]
        have he : 0 < e := by
          by_contra hn
          have hz : e = 0 := Nat.eq_zero_of_not_pos hn
          subst hz
          have := level_le (d-1) 0 ps
          rw [Nat.add_zero] at this h
          rw [Nat.zero_sub] at h
          omega
        rw [Nat.add_sub_assoc he] at h
        exact ⟨fun _ => he,ih (e-1) h⟩
      · rw [if_neg hup, if_neg hup, Nat.add_assoc] at h
        rw [if_neg hup]
        exact ⟨fun h => absurd h hup,ih (e+1) h⟩

theorem push_stays (base stash ps : List Bytes) (h : Stays stash.length ps) :
    ps.foldl push (base ++ stash) = base ++ ps.foldl push stash := by
  induction ps generalizing stash with
  | nil => rfl
  | cons p ps ih =>
    obtain ⟨hp,hps⟩ := h
    have hlength := length_push stash [p]
    rw [List.foldl_cons, List.foldl_nil, level, level] at hlength
    rw [← hlength] at hps
    rw [List.foldl_cons, List.foldl_cons, ← ih (push stash p) hps]
    congr 1
    unfold push
    split
    · rfl
    · split
      · rename_i hup
        exact List.dropLast_append_of_ne_nil (List.ne_nil_of_length_pos (hp hup))
      · exact List.append_assoc ..

theorem names_push (stash ps : List Bytes) (hstash : ∀ p ∈ stash, Names p) (hps : ∀ p ∈ ps, p ≠ []) :
    ∀ p ∈ ps.foldl push stash, Names p := by
  induction ps generalizing stash with
  | nil => exact hstash
  | cons q ps ih =>
    obtain ⟨hq,hps⟩ := List.forall_mem_cons.mp hps
    refine ih _ (fun p hp => ?_) hps
    unfold push at hp
    split at hp
    · exact hstash p hp
    · rename_i hdot
      split at hp
      · exact hstash p ((List.dropLast_sublist stash).mem hp)
      · rename_i hup
        rcases List.mem_append.mp hp with hp | hp
        · exact hstash p hp
        · rw [List.mem_singleton.mp hp]
          exact ⟨hq,hdot,hup⟩

end Walk

section Volume

theorem volume_append (n : ℕ) (ps : List Bytes) (h : ∀ p ∈ ps, Names p) :
    volume n ps ++ beyond n ps = ps := by
  induction ps generalizing n with
  | nil => cases n <;> rfl
  | cons p ps ih =>
    obtain ⟨hp,hps⟩ := List.forall_mem_cons.mp h
    cases n with
    | zero => rfl
    | succ n => rw [volume, beyond, if_pos hp, if_pos hp, List.cons_append, ih n hps]

theorem beyond_eq_drop (n : ℕ) (ps : List Bytes) (h : ∀ p ∈ ps, Names p) : beyond n ps = ps.drop n := by
  induction ps generalizing n with
  | nil => cases n <;> rfl
  | cons p ps ih =>
    obtain ⟨hp,hps⟩ := List.forall_mem_cons.mp h
    cases n with
    | zero => rfl
    | succ n => rw [beyond, if_pos hp, ih n hps, List.drop_succ_cons]

theorem names_volume (n : ℕ) (ps : List Bytes) : ∀ p ∈ volume n ps, Names p ∧ p ∈ ps := by
  induction ps generalizing n with
  | nil => cases n <;> exact List.forall_mem_nil _
  | cons q ps ih =>
    cases n with
    | zero => exact List.forall_mem_nil _
    | succ n =>
      intro p hp
      rw [volume] at hp
      by_cases hq : Names q
      · rw [if_pos hq] at hp
        rcases List.mem_cons.mp hp with rfl | hp
        · exact ⟨hq,List.mem_cons_self⟩
        · exact ⟨(ih n p hp).1,List.mem_cons_of_mem q (ih n p hp).2⟩
      · rw [if_neg hq] at hp
        exact ⟨(ih _ p hp).1,List.mem_cons_of_mem q (ih _ p hp).2⟩

theorem mem_beyond (n : ℕ) (ps : List Bytes) : ∀ p ∈ beyond n ps, p ∈ ps := by
  induction ps generalizing n with
  | nil => cases n <;> exact List.forall_mem_nil _
  | cons q ps ih =>
    cases n with
    | zero => exact fun p hp => hp
    | succ n =>
      intro p hp
      rw [beyond] at hp
      split at hp
      · exact List.mem_cons_of_mem q (ih _ p hp)
      · exact List.mem_cons_of_mem q (ih _ p hp)

theorem volume_ne_nil {n : ℕ} {ps : List Bytes} (hn : 0 < n) (h : ∃ p ∈ ps, Names p) : volume n ps ≠ [] := by
  obtain ⟨p,hp,hname⟩ := h
  induction ps generalizing n with
  | nil => exact absurd hp List.not_mem_nil
  | cons q ps ih =>
    obtain ⟨m,rfl⟩ := Nat.exists_eq_succ_of_ne_zero (Nat.pos_iff_ne_zero.mp hn)
    rw [volume]
    by_cases hq : Names q
    · rw [if_pos hq]
      exact List.cons_ne_nil _ _
    · rw [if_neg hq]
      rcases List.mem_cons.mp hp with rfl | hp
      · exact absurd hname hq
      · exact ih hn hp

end Volume

section Parts

theorem splitOn_separator_free (a : UInt8) (s p : Bytes) (h : p ∈ s.splitOn a) : a ∉ p := by
  induction s generalizing p with
  | nil =>
    rw [List.splitOn_nil, List.mem_singleton] at h
    exact h ▸ List.not_mem_nil
  | cons c s ih =>
    rw [List.splitOn_cons_eq_if_modifyHead] at h
    by_cases hc : c = a
    · rw [if_pos (by rw [hc, beq_self_eq_true])] at h
      rcases List.mem_cons.mp h with rfl | h
      · exact List.not_mem_nil
      · exact ih p h
    · rw [if_neg (by rwa [beq_iff_eq])] at h
      obtain ⟨q,qs,hs⟩ := List.exists_cons_of_ne_nil (List.splitOn_ne_nil a s)
      rw [hs] at ih h
      rcases List.mem_cons.mp h with rfl | h
      · intro ha
        rcases List.mem_cons.mp ha with ha | ha
        · exact hc ha.symm
        · exact ih q List.mem_cons_self ha
      · exact ih p (List.mem_cons_of_mem q h)

theorem lowerByte_fixed (c d : UInt8) (hd : d.toNat < 65) : lowerByte c = d ↔ c = d := by
  rw [← UInt8.toNat_inj, ← UInt8.toNat_inj, lowerByte_toNat]
  split <;> omega

theorem lower_fixed (s t : Bytes) (ht : t.all (fun d => d.toNat < 65) = true) : lower s = t ↔ s = t := by
  induction s generalizing t with
  | nil => exact Iff.rfl
  | cons c s ih =>
    cases t with
    | nil => exact iff_of_false (List.cons_ne_nil _ _) (List.cons_ne_nil c s)
    | cons d t =>
      rw [List.all_cons, Bool.and_eq_true, decide_eq_true_eq] at ht
      obtain ⟨hd,ht⟩ := ht
      change lowerByte c::lower s = d::t ↔ _
      rw [List.cons.injEq, List.cons.injEq, lowerByte_fixed c d hd, ih t ht]

theorem names_lower (p : Bytes) : Names (lower p) ↔ Names p := by
  unfold Names
  rw [ne_eq, ne_eq, ne_eq, lower_fixed p [] (by decide), lower_fixed p (text ".") (by decide),
    lower_fixed p (text "..") (by decide)]

theorem separator_lower (c : UInt8) : lowerByte c = separator ↔ c = separator := by
  have hs : separator.toNat = 92 := rfl
  rw [← UInt8.toNat_inj, ← UInt8.toNat_inj, lowerByte_toNat, hs]
  split <;> omega

theorem splitOn_lower (s : Bytes) : (lower s).splitOn separator = (s.splitOn separator).map lower := by
  induction s with
  | nil => rfl
  | cons c s ih =>
    change (lowerByte c::lower s).splitOn separator = _
    rw [List.splitOn_cons_eq_if_modifyHead, List.splitOn_cons_eq_if_modifyHead, ih]
    by_cases hc : c = separator
    · rw [if_pos (by rw [(separator_lower c).mpr hc, beq_self_eq_true]),
        if_pos (by rw [hc, beq_self_eq_true])]
      rfl
    · rw [if_neg (by rwa [beq_iff_eq, separator_lower]), if_neg (by rwa [beq_iff_eq])]
      obtain ⟨q,qs,hs⟩ := List.exists_cons_of_ne_nil (List.splitOn_ne_nil separator s)
      rw [hs]
      rfl

theorem splitOn_separators (t : Bytes) :
    (separator::separator::t).splitOn separator = []::[]::t.splitOn separator := by
  rw [List.splitOn_cons_eq_if_modifyHead, if_pos (beq_self_eq_true _),
    List.splitOn_cons_eq_if_modifyHead, if_pos (beq_self_eq_true _)]

theorem splitOn_injective {s t : Bytes} (h : s.splitOn separator = t.splitOn separator) : s = t := by
  have hs : [separator].intercalate (s.splitOn separator) = s := List.intercalate_splitOn separator
  rw [← hs, h, List.intercalate_splitOn]

theorem mem_segments (s : Bytes) : ∀ p ∈ segments s, p ≠ [] ∧ separator ∉ p := fun p hp =>
  ⟨by simpa using (List.mem_filter.mp hp).2,splitOn_separator_free _ s p (List.mem_of_mem_filter hp)⟩

theorem names_located (dir : Bytes) (name : List Bytes) (hname : ∀ p ∈ name, p ≠ [] ∧ separator ∉ p) :
    ∀ p ∈ located dir name, Names p ∧ separator ∉ p := by
  have hrest : ∀ p ∈ beyond (kind dir).fixed (segments dir) ++ name, p ≠ [] ∧ separator ∉ p := by
    intro p hp
    rcases List.mem_append.mp hp with hp | hp
    · exact mem_segments dir p (mem_beyond _ _ p hp)
    · exact hname p hp
  intro p hp
  rcases List.mem_append.mp hp with hp | hp
  · obtain ⟨hn,hs⟩ := names_volume _ _ p hp
    exact ⟨hn,(mem_segments dir p hs).2⟩
  · refine ⟨names_push [] _ (List.forall_mem_nil _) (fun p hp => (hrest p hp).1) p hp,?_⟩
    rcases mem_push [] _ p hp with hp | hp
    · exact absurd hp List.not_mem_nil
    · exact (hrest p hp).2

theorem kind_named {s : Bytes} (h : kind s ≠ .root) : ∃ p ∈ segments s, Names p := by
  by_contra hn
  push Not at hn
  rw [kind, if_pos hn] at h
  exact h rfl

theorem splitOn_joined (dir : Bytes) (name : List Bytes) (hname : ∀ p ∈ name, p ≠ [] ∧ separator ∉ p) :
    (joined dir name).splitOn separator =
      List.replicate (kind dir).separators [] ++ located dir name := by
  apply List.splitOn_intercalate
  · intro p hp
    rcases List.mem_append.mp hp with hp | hp
    · rw [List.eq_of_mem_replicate hp]
      exact List.not_mem_nil
    · exact (names_located dir name hname p hp).2
  · cases hk : kind dir with
    | share => exact List.cons_ne_nil _ _
    | root => exact List.cons_ne_nil _ _
    | drive =>
      have hv : volume (kind dir).fixed (segments dir) ≠ [] :=
        volume_ne_nil (by rw [hk]; decide) (kind_named (by rw [hk]; decide))
      intro h
      exact hv (List.append_eq_nil_iff.mp (List.append_eq_nil_iff.mp h).2).1

theorem slash_segments (s p : Bytes) (hs : byte '/' ∉ s) (hp : p ∈ segments s) : byte '/' ∉ p := by
  intro hc
  have hsep : byte '/' ∉ [separator] := by decide
  have hmem := (mem_intercalate [separator] _ _ hsep).mpr ⟨p,List.mem_of_mem_filter hp,hc⟩
  rw [List.intercalate_splitOn] at hmem
  exact hs hmem

theorem slash_joined (dir : Bytes) (name : List Bytes) (hdir : byte '/' ∉ dir)
    (hname : ∀ p ∈ name, byte '/' ∉ p) : byte '/' ∉ joined dir name := by
  intro hc
  obtain ⟨p,hp,hc⟩ := (mem_intercalate [separator] _ _ (by decide)).mp hc
  rcases List.mem_append.mp hp with hp | hp
  · rw [List.eq_of_mem_replicate hp] at hc
    exact List.not_mem_nil hc
  · rcases List.mem_append.mp hp with hp | hp
    · exact slash_segments dir p hdir (names_volume _ _ p hp).2 hc
    · rcases mem_push [] _ p hp with hp | hp
      · exact List.not_mem_nil hp
      · rcases List.mem_append.mp hp with hp | hp
        · exact slash_segments dir p hdir (mem_beyond _ _ p hp) hc
        · exact hname p hp hc

theorem splitOn_agree {s dir : Bytes} {name : List Bytes} (hname : ∀ p ∈ name, p ≠ [] ∧ separator ∉ p)
    (h : lower s = lower (joined dir name)) :
    (s.splitOn separator).map lower =
      (List.replicate (kind dir).separators [] ++ located dir name).map lower := by
  rw [← splitOn_lower, h, splitOn_lower, splitOn_joined dir name hname]

end Parts

section Agreement

/-- Parts that agree, up to case, with separators and then names. -/
theorem agree_spec {n : ℕ} {A B C : List Bytes} (hn : n ≤ A.length) (hC : ∀ p ∈ C, Names p)
    (h : (A ++ B).map lower = (List.replicate n [] ++ C).map lower) :
    A = List.replicate n [] ++ A.drop n ∧ (∀ p ∈ A.drop n ++ B, Names p) ∧
      (A.drop n).length + B.length = C.length := by
  have hsplit : (A.take n).map lower ++ (A.drop n ++ B).map lower =
      (List.replicate n []).map lower ++ C.map lower := by
    rw [← List.map_append, ← List.append_assoc, List.take_append_drop, h, List.map_append]
  have hlength : ((A.take n).map lower).length = ((List.replicate n ([] : Bytes)).map lower).length := by
    rw [List.length_map, List.length_map, List.length_take, List.length_replicate, Nat.min_eq_left hn]
  obtain ⟨hfront,hback⟩ := List.append_inj hsplit hlength
  have hempty : A.take n = List.replicate n [] := by
    rw [List.eq_replicate_iff]
    refine ⟨by rw [List.length_take, Nat.min_eq_left hn],fun p hp => ?_⟩
    have hmem := List.mem_map_of_mem (f := lower) hp
    rw [hfront, List.map_replicate] at hmem
    exact (lower_fixed p [] (by decide)).mp (List.eq_of_mem_replicate hmem)
  refine ⟨by rw [← hempty, List.take_append_drop],fun p hp => ?_,?_⟩
  · have hmem := List.mem_map_of_mem (f := lower) hp
    rw [hback] at hmem
    obtain ⟨q,hq,he⟩ := List.mem_map.mp hmem
    exact (names_lower p).mp (he ▸ (names_lower q).mpr (hC q hq))
  · have := congrArg List.length hback
    rwa [List.length_map, List.length_map, List.length_append] at this

theorem segments_eq {s : Bytes} {n : ℕ}
    (h : s.splitOn separator = List.replicate n [] ++ (s.splitOn separator).drop n)
    (hnames : ∀ p ∈ (s.splitOn separator).drop n, Names p) :
    segments s = (s.splitOn separator).drop n := by
  rw [segments, h, List.filter_append, List.drop_left' List.length_replicate]
  have hleft : (List.replicate n ([] : Bytes)).filter (· ≠ []) = [] := by
    rw [List.filter_eq_nil_iff]
    intro p hp
    simp [List.eq_of_mem_replicate hp]
  have hright : ((s.splitOn separator).drop n).filter (· ≠ []) = (s.splitOn separator).drop n := by
    rw [List.filter_eq_self]
    exact fun p hp => by simpa using (hnames p hp).1
  rw [hleft, hright, List.nil_append]

theorem separators_le (s : Bytes) : (kind s).separators ≤ (s.splitOn separator).length := by
  have hone : 1 ≤ (s.splitOn separator).length := List.length_pos_of_ne_nil (List.splitOn_ne_nil _ _)
  unfold kind
  split
  · exact hone
  · split
    · rename_i hs
      obtain ⟨t,rfl⟩ := List.isPrefixOf_iff_prefix.mp hs
      change 2 ≤ ((separator::separator::t).splitOn separator).length
      rw [splitOn_separators]
      exact Nat.le_add_left 2 _
    · split
      · exact hone
      · exact Nat.zero_le _

/-- The directory's names with the walk of the name below them. -/
theorem located_names {dir : Bytes} {name : List Bytes} (h : ∀ p ∈ segments dir, Names p) :
    located dir name = volume (kind dir).fixed (segments dir) ++
      name.foldl push (beyond (kind dir).fixed (segments dir)) := by
  have hb : ∀ p ∈ beyond (kind dir).fixed (segments dir), Names p := fun p hp => h p (mem_beyond _ _ p hp)
  rw [located, List.foldl_append, push_names [] _ hb, List.nil_append]

theorem length_located (name : List Bytes) {dir : Bytes} (h : ∀ p ∈ segments dir, Names p) :
    (located dir name).length + (beyond (kind dir).fixed (segments dir)).length =
      (segments dir).length + level (beyond (kind dir).fixed (segments dir)).length name := by
  have hv := congrArg List.length (volume_append (kind dir).fixed (segments dir) h)
  rw [List.length_append] at hv
  rw [located_names h, List.length_append, length_push]
  omega

theorem clean_of_agree {dir : Bytes} {B C : List Bytes} (hC : ∀ p ∈ C, Names p)
    (h : (dir.splitOn separator ++ B).map lower =
      (List.replicate (kind dir).separators [] ++ C).map lower) :
    Clean dir ∧ (∀ p ∈ B, Names p) ∧ (segments dir).length + B.length = C.length := by
  obtain ⟨hparts,hnames,hlength⟩ := agree_spec (separators_le dir) hC h
  obtain ⟨hdir,hB⟩ := List.forall_mem_append.mp hnames
  have hs := segments_eq hparts hdir
  rw [← hs] at hparts hdir hlength
  exact ⟨⟨hparts,hdir⟩,hB,hlength⟩

end Agreement

section Resolved

/-- `baseDir .. normalize(name)`. -/
theorem splitOn_normalize (dir name : Bytes) :
    (dir ++ [separator] ++ normalize name).splitOn separator = dir.splitOn separator ++
      (if (segments name).foldl push [] = [] then [[]] else (segments name).foldl push []) := by
  have hsep : ∀ p ∈ (segments name).foldl push [], separator ∉ p := by
    intro p hp
    rcases mem_push [] _ p hp with hp | hp
    · exact absurd hp List.not_mem_nil
    · exact (mem_segments name p hp).2
  have hn : (normalize name).splitOn separator =
      if (segments name).foldl push [] = [] then [[]] else (segments name).foldl push [] := by
    change (List.intercalate [separator] ((segments name).foldl push [])).splitOn separator = _
    by_cases h : (segments name).foldl push [] = []
    · rw [if_pos h, h]
      rfl
    · rw [if_neg h, List.splitOn_intercalate separator hsep h]
  rw [List.append_assoc, List.singleton_append, List.splitOn_append_cons_self, hn]

theorem level_zero (ps : List Bytes) : 0 < level 0 ps ↔ ps.foldl push [] ≠ [] := by
  rw [← List.length_pos_iff, length_push]
  rfl

theorem beyond_nil_iff {dir : Bytes} (h : ∀ p ∈ segments dir, Names p) :
    (beyond (kind dir).fixed (segments dir)).length = 0 ↔ (segments dir).length ≤ (kind dir).fixed := by
  rw [beyond_eq_drop _ _ h, List.length_drop, Nat.sub_eq_zero_iff_le]

/-- A relative name that is found under the canonical path. -/
theorem relative_of_agree {dir name : Bytes}
    (h : lower (dir ++ [separator] ++ normalize name) = lower (joined dir (segments name))) :
    Clean dir ∧ (Stays 0 (segments name) ∨ (segments dir).length ≤ (kind dir).fixed) ∧
      0 < level 0 (segments name) := by
  have hparts := splitOn_agree (mem_segments name) h
  rw [splitOn_normalize] at hparts
  obtain ⟨hclean,hN,hlength⟩ :=
    clean_of_agree (fun p hp => (names_located dir _ (mem_segments name) p hp).1) hparts
  have hne : (segments name).foldl push [] ≠ [] := by
    intro he
    rw [if_pos he] at hN
    exact (hN [] List.mem_cons_self).1 rfl
  rw [if_neg hne, length_push] at hlength
  refine ⟨hclean,?_,(level_zero _).mpr hne⟩
  have hl := length_located (segments name) hclean.2
  rw [← beyond_nil_iff hclean.2]
  by_cases hz : (beyond (kind dir).fixed (segments dir)).length = 0
  · exact .inr hz
  · refine .inl (stays_of_level _ 0 _ (Nat.pos_of_ne_zero hz) ?_)
    rw [List.length_nil] at hlength
    rw [Nat.add_zero]
    omega

theorem relative_joined {dir name : Bytes} (hclean : Clean dir)
    (hwalk : Stays 0 (segments name) ∨ (segments dir).length ≤ (kind dir).fixed)
    (hlevel : 0 < level 0 (segments name)) :
    dir ++ [separator] ++ normalize name = joined dir (segments name) := by
  apply splitOn_injective
  rw [splitOn_normalize, splitOn_joined _ _ (mem_segments name), if_neg ((level_zero _).mp hlevel),
    located_names hclean.2, hclean.1, List.append_assoc]
  congr 1
  have hbase : (segments name).foldl push (beyond (kind dir).fixed (segments dir)) =
      beyond (kind dir).fixed (segments dir) ++ (segments name).foldl push [] := by
    rcases hwalk with hs | hroot
    · have := push_stays (beyond (kind dir).fixed (segments dir)) [] _ hs
      rwa [List.append_nil] at this
    · rw [List.eq_nil_of_length_eq_zero ((beyond_nil_iff hclean.2).mpr hroot)]
      rfl
  rw [hbase, ← List.append_assoc, volume_append _ _ hclean.2]

theorem clean_joined {s : Bytes} (h : Clean s) : s = joined s [] := by
  apply splitOn_injective
  rw [splitOn_joined _ _ (List.forall_mem_nil _), located_names h.2]
  exact h.1.trans (congrArg _ (volume_append _ _ h.2).symm)

theorem joined_iff_clean (s : Bytes) : lower s = lower (joined s []) ↔ Clean s := by
  have hnone : ∀ p ∈ ([] : List Bytes), p ≠ [] ∧ separator ∉ p := List.forall_mem_nil _
  constructor
  · intro h
    have hparts := splitOn_agree hnone h
    rw [← List.append_nil (s.splitOn separator)] at hparts
    exact (clean_of_agree (fun p hp => (names_located s _ hnone p hp).1) hparts).1
  · exact fun h => congrArg lower (clean_joined h)

/-- What looks absolute behind `.\` is not below the directory. -/
theorem rooted_not_joined (w : Windows) (dir s : Bytes) (hs : w.absolute s = true) :
    lower s ≠ lower (joined dir (segments s)) := by
  intro h
  have hparts := splitOn_agree (mem_segments s) h
  have hn : (kind dir).separators ≤ (s.splitOn separator).length := by
    have := congrArg List.length hparts
    rw [List.length_map, List.length_map, List.length_append, List.length_replicate] at this
    omega
  rw [← List.append_nil (s.splitOn separator)] at hparts
  obtain ⟨hA,hnames,hlength⟩ :=
    agree_spec hn (fun p hp => (names_located dir _ (mem_segments s) p hp).1) hparts
  rw [List.append_nil] at hnames
  have hseg := segments_eq hA hnames
  rw [← hseg] at hlength hnames
  rw [List.length_nil, located, List.length_append, List.foldl_append, push_names _ _ hnames,
    List.length_append] at hlength
  have hvolume : volume (kind dir).fixed (segments dir) = [] :=
    List.eq_nil_of_length_eq_zero (by omega)
  have hroot : kind dir = .root := by
    by_contra hk
    refine volume_ne_nil ?_ (kind_named hk) hvolume
    cases hd : kind dir with
    | share => decide
    | root => exact absurd hd hk
    | drive => decide
  rw [hroot] at hA hseg
  rcases w.rooted s hs with ⟨c,t,hc,rfl⟩ | ⟨t,rfl⟩
  · rw [List.splitOn_cons_eq_if_modifyHead, if_neg (by rwa [beq_iff_eq])] at hA
    obtain ⟨q,qs,ht⟩ := List.exists_cons_of_ne_nil
      (List.splitOn_ne_nil separator (byte ':'::separator::t))
    rw [ht] at hA
    exact List.cons_ne_nil _ _ (List.cons.inj hA).1
  · rw [splitOn_separators] at hseg
    have hmem : [] ∈ segments (separator::separator::t) := by
      rw [hseg]
      exact List.mem_cons_self
    exact (mem_segments _ [] hmem).1 rfl

end Resolved

section Registered

variable (w : Windows) (load : Load) (pairs : Pairs (ℤ × Breakpoint))

/-- The script has an entry of the canonical path, and the editor's path leads to it in
whatever case and with whatever separators it is written. -/
def Registered (cwd : Option Bytes) (name content : Bytes) (t : FileTable) : Prop :=
  (∃ file, (addFile w.fileSystem load pairs name content t).table.files t.fileId = some file ∧
    file.path = some (canonical w cwd name)) ∧
  ∀ path, key path = key (canonical w cwd name) →
    (addFile w.fileSystem load pairs name content t).table.getFileByPath path = some t.fileId

structure Numbered (cwd : Option Bytes) (t : FileTable) : Prop where
  baseDir : t.baseDir = backslashes (cwd.getD []) ++ [separator]
  below : ∀ P k, t.path2file P = some k → k < t.fileId

variable {w load pairs}

theorem slash_baseDir {cwd : Option Bytes} {t : FileTable} (h : Numbered cwd t) : byte '/' ∉ t.baseDir := by
  rw [h.baseDir]
  intro hs
  rcases List.mem_append.mp hs with hs | hs
  · exact slash_backslashes _ hs
  · exact absurd (List.mem_singleton.mp hs) (by decide)

theorem numbered_step {cwd : Option Bytes} (s : State) (a : Act) (s' : State) (h : Numbered cwd s.table)
    (hs : Step load pairs s a s') : Numbered cwd s'.table := by
  subst hs
  cases a with
  | setBreakpoints path breakpoints =>
    change Numbered cwd (Files.setBreakpoints load pairs path breakpoints s.table).1
    unfold Files.setBreakpoints
    split
    · exact ⟨h.baseDir,h.below⟩
    · split
      · exact h
      · exact ⟨h.baseDir,h.below⟩
  | addFile fs name content =>
    have hadded := addFile_added load pairs fs name content s.table (slash_baseDir h)
    change Numbered cwd (addFile fs load pairs name content s.table).table
    generalize (addFile fs load pairs name content s.table).table = t' at hadded
    cases hadded with
    | refused lost => exact h
    | memory file nowhere lost =>
      exact ⟨h.baseDir,fun P k hk => Nat.lt_succ_of_lt (h.below P k hk)⟩
    | loaded path file id resolved found at_path lines =>
      refine ⟨h.baseDir,fun P k hk => ?_⟩
      by_cases hP : P = key path
      · rw [hP] at hk
        dsimp only at hk
        rw [Function.update_self] at hk
        exact Option.some.inj hk ▸ Nat.lt_succ_self _
      · dsimp only at hk
        rw [Function.update_of_ne hP] at hk
        exact Nat.lt_succ_of_lt (h.below P k hk)

/-- The path `addFile` looks at, in terms of the stripped name. -/
theorem resolve_eq (name baseDir : Bytes) : resolve w.fileSystem name baseDir =
    .ok (if w.absolute (stripped name) then stripped name else baseDir ++ normalize (stripped name)) := rfl

theorem registered_iff_key {cwd : Option Bytes} {t : FileTable} (ht : Numbered cwd t) (name content : Bytes)
    (hfound : w.found (canonical w cwd name) = true) {path : Bytes}
    (hpath : resolve w.fileSystem name t.baseDir = .ok path)
    (heq : lower path = lower (canonical w cwd name) → path = canonical w cwd name)
    (hclean : byte '/' ∉ canonical w cwd name) :
    Registered w load pairs cwd name content t ↔ lower path = lower (canonical w cwd name) := by
  have hadded := addFile_added load pairs w.fileSystem name content t (slash_baseDir ht)
  have hold (hk : t.path2file (key (canonical w cwd name)) = some t.fileId) : False :=
    Nat.lt_irrefl _ (ht.below _ _ hk)
  constructor
  · rintro ⟨-,hr⟩
    have hr := hr _ rfl
    generalize (addFile w.fileSystem load pairs name content t).table = t' at hr hadded
    cases hadded with
    | refused lost => exact (hold hr).elim
    | memory file nowhere lost => exact (hold hr).elim
    | loaded p file id resolved found at_path lines =>
      rw [hpath] at resolved
      cases resolved
      by_contra hne
      have hslash := slash_resolve _ _ _ _ (slash_baseDir ht) hpath
      rw [← key_clean _ hclean, ← key_clean _ hslash] at hne
      change Function.update t.path2file (key path) (some t.fileId) (key (canonical w cwd name)) =
        some t.fileId at hr
      rw [Function.update_of_ne (Ne.symm hne)] at hr
      exact hold hr
  · intro he
    have he := heq he
    subst he
    unfold Registered
    generalize (addFile w.fileSystem load pairs name content t).table = t' at hadded
    have hlost (lost : ∀ p, resolve w.fileSystem name t.baseDir = .ok p →
        w.fileSystem.exists p ≠ .ok true) : False :=
      lost _ hpath (congrArg Except.ok hfound)
    cases hadded with
    | refused lost => exact (hlost lost).elim
    | memory file nowhere lost => exact (hlost lost).elim
    | loaded p file id resolved found at_path lines =>
      rw [hpath] at resolved
      cases resolved
      refine ⟨⟨file,Function.update_self ..,at_path⟩,fun q hq => ?_⟩
      change Function.update t.path2file _ (some t.fileId) (key q) = _
      rw [hq, Function.update_self]

theorem slash_canonical (cwd : Option Bytes) (name : Bytes) : byte '/' ∉ canonical w cwd name := by
  unfold canonical
  split
  · exact slash_joined _ _ (slash_backslashes _) (List.forall_mem_nil _)
  · exact slash_joined _ _ (slash_backslashes _)
      (fun p hp => slash_segments _ p (slash_backslashes _) hp)

theorem stripped_eq {name : Bytes} (h : w.absolute (backslashes name) = true) :
    stripped name = backslashes name := by
  rw [stripped, if_neg]
  intro hdot
  obtain ⟨t,rfl⟩ := List.isPrefixOf_iff_prefix.mp hdot
  rcases w.rooted _ h with ⟨c,t',-,he⟩ | ⟨t',he⟩
  · exact absurd (List.cons.inj (List.cons.inj he).2).1 (by decide)
  · exact absurd (List.cons.inj he).1 (by decide)

/-- The `.\` taken off is a segment that the walk passes over. -/
theorem joined_stripped (dir name : Bytes) :
    joined dir (segments (backslashes name)) = joined dir (segments (stripped name)) := by
  unfold stripped
  split
  · rename_i hdot
    obtain ⟨t,rfl⟩ := List.isPrefixOf_iff_prefix.mp hdot
    have ht : (backslashes (text ".\\" ++ t)).splitOn separator =
        text "."::(backslashes t).splitOn separator :=
      List.splitOn_append_cons_self (text ".") (backslashes t)
    have hs : segments (backslashes (text ".\\" ++ t)) = text "."::segments (backslashes t) := by
      rw [segments, ht, List.filter_cons_of_pos (by decide)]
      rfl
    rw [hs, joined, joined, located, located, List.foldl_append, List.foldl_append]
    rfl
  · rfl

end Registered

/-- In every table, a script whose canonical path exists is registered under it and found
by the editor, exactly if its name and the directory are spelled so. -/
theorem registered_iff (w : Windows) (load : Load) (pairs : Pairs (ℤ × Breakpoint)) (cwd : Option Bytes)
    (acts : List Act) (s : State) (hr : Runs (Step load pairs) (start cwd) acts s) (name content : Bytes)
    (hfound : w.found (canonical w cwd name) = true) :
    Registered w load pairs cwd name content s.table ↔ Spelled w cwd name := by
  have ht : Numbered cwd s.table :=
    runs_invariant (I := fun s => Numbered cwd s.table) numbered_step hr
      ⟨rfl,fun P k hk => nomatch hk⟩
  have hres := resolve_eq (w := w) name s.table.baseDir
  rw [ht.baseDir] at hres
  by_cases ha : w.absolute (backslashes name) = true
  · have hcanon : canonical w cwd name = joined (backslashes name) [] := if_pos ha
    rw [stripped_eq ha, if_pos ha, ← ht.baseDir] at hres
    rw [Spelled, if_pos ha, ← joined_iff_clean, registered_iff_key ht name content hfound hres ?_ (slash_canonical _ _),
      hcanon]
    intro he
    rw [hcanon] at he ⊢
    exact clean_joined ((joined_iff_clean _).mp he)
  · have hcanon : canonical w cwd name =
        joined (backslashes (cwd.getD [])) (segments (stripped name)) :=
      (if_neg ha).trans (joined_stripped _ _)
    rw [Spelled, if_neg ha]
    cases hb : w.absolute (stripped name) with
    | true =>
      rw [hb, if_pos rfl, ← ht.baseDir] at hres
      have hne := rooted_not_joined w (backslashes (cwd.getD [])) _ hb
      rw [← hcanon] at hne
      rw [registered_iff_key ht name content hfound hres (fun he => absurd he hne) (slash_canonical _ _)]
      exact iff_of_false hne (fun h => nomatch h.1)
    | false =>
      rw [hb, if_neg Bool.false_ne_true, ← ht.baseDir] at hres
      rw [registered_iff_key ht name content hfound hres ?_ (slash_canonical _ _), hcanon, ht.baseDir]
      · constructor
        · exact fun he => ⟨rfl,relative_of_agree he⟩
        · rintro ⟨-,hclean,hwalk,hlevel⟩
          rw [relative_joined hclean hwalk hlevel]
      · rw [hcanon, ht.baseDir]
        intro he
        obtain ⟨hclean,hwalk,hlevel⟩ := relative_of_agree he
        exact relative_joined hclean hwalk hlevel

def hasRoot : Bytes → Bool
  | c::d::s => c = separator && d = separator || c ≠ separator && d = byte ':' && s.head? = some separator
  | _ => false

theorem hasRoot_rooted (s : Bytes) (h : hasRoot s = true) :
    (∃ c t, c ≠ separator ∧ s = c::byte ':'::separator::t) ∨ ∃ t, s = separator::separator::t := by
  match s, h with
  | c::d::s, h =>
    simp only [hasRoot, Bool.or_eq_true, Bool.and_eq_true, decide_eq_true_eq] at h
    rcases h with ⟨rfl,rfl⟩ | ⟨⟨hc,rfl⟩,hs⟩
    · exact .inr ⟨s,rfl⟩
    · obtain ⟨t,rfl⟩ := List.head?_eq_some_iff.mp hs
      exact .inl ⟨c,t,hc,rfl⟩

def windows : Windows := ⟨hasRoot,fun _ => true,hasRoot_rooted⟩

/-- A name with `.`, `..` and both separators, after another script. -/
theorem registered_iff_walk :
    Registered windows (fun _ _ => none) inOrder (some (text "C:/proj")) (text ".\\lib/./../main.lua") []
      (perform (fun _ _ => none) inOrder (start (some (text "C:/proj")))
        (.addFile windows.fileSystem (text "a.lua") [])).table := by
  refine (registered_iff windows (fun _ _ => none) inOrder (some (text "C:/proj"))
    [.addFile windows.fileSystem (text "a.lua") []] _ (.cons rfl (.nil _)) (text ".\\lib/./../main.lua") []
    rfl).mpr ?_
  rw [Spelled, if_neg (by decide +kernel)]
  refine ⟨by decide +kernel,⟨by decide +kernel,by decide +kernel⟩,.inl ?_,by decide +kernel⟩
  have hs : segments (stripped (text ".\\lib/./../main.lua")) =
      [text "lib",text ".",text "..",text "main.lua"] := by decide +kernel
  rw [hs]
  simp only [Stays]
  decide

/-- `cwd` ends with a separator, and gets another one. -/
theorem trailing_not_registered :
    windows.found (canonical windows (some (text "C:\\proj\\")) (text "main.lua")) = true ∧
    ¬ Registered windows (fun _ _ => none) inOrder (some (text "C:\\proj\\")) (text "main.lua") []
      (start (some (text "C:\\proj\\"))).table := by
  refine ⟨rfl,fun h => ?_⟩
  have hnone : (addFile windows.fileSystem (fun _ _ => none) inOrder (text "main.lua") []
      (start (some (text "C:\\proj\\"))).table).table.getFileByPath (text "C:\\proj\\main.lua") = none := by
    decide +kernel
  have hkey : key (text "C:\\proj\\main.lua") =
      key (canonical windows (some (text "C:\\proj\\")) (text "main.lua")) := by decide +kernel
  rw [h.2 _ hkey] at hnone
  cases hnone

end Vecoda.CanonicalPaths

import Mathlib.Data.Finset.Card
import Mathlib.Data.List.Nodup
import Mathlib.Logic.Relation

/-!
# Depth-first search by name

A search that marks nodes by a name, and passes by a node whose name it has
seen. What it adds has new names, is reached from where it began, and leads
nowhere but to names it has seen; where no two nodes share a name, it is
everything that is reached. A depth beyond the number of names suffices.
-/

set_option autoImplicit false

namespace Vecoda.DepthFirst

variable {α ν : Type} (name : α → ν) (next : α → List α)

def visit [DecidableEq ν] : ℕ → α → List α → Option (List α)
  | 0, _, _ => none
  | depth+1, a, seen =>
    if name a ∈ seen.map name then some seen
    else (next a).foldlM (fun seen b => visit depth b seen) (seen ++ [a])

def Reaches : α → α → Prop := Relation.ReflTransGen (fun a b => b ∈ next a)

structure Searched (roots seen out : List α) : Prop where
  added : seen <+: out
  nodup : (seen.map name).Nodup → (out.map name).Nodup
  named : ∀ a ∈ roots, name a ∈ out.map name
  reached : ∀ x ∈ out, x ∈ seen ∨ ∃ a ∈ roots, Reaches next a x
  closed : ∀ x ∈ out, x ∈ seen ∨ ∀ b ∈ next x, name b ∈ out.map name

section Search

variable {name next}

theorem names_added {seen out : List α} (h : seen <+: out) {n : ν} (hn : n ∈ seen.map name) :
    n ∈ out.map name :=
  (h.map name).subset hn

theorem searched_nil (seen : List α) : Searched name next [] seen seen where
  added := List.prefix_refl _
  nodup := id
  named := List.forall_mem_nil _
  reached _ hx := .inl hx
  closed _ hx := .inl hx

theorem searched_append {roots roots' seen mid out : List α} (h : Searched name next roots seen mid)
    (h' : Searched name next roots' mid out) : Searched name next (roots ++ roots') seen out where
  added := h.added.trans h'.added
  nodup hseen := h'.nodup (h.nodup hseen)
  named a ha := (List.mem_append.mp ha).elim (fun ha => names_added h'.added (h.named a ha)) (h'.named a)
  reached x hx := by
    rcases h'.reached x hx with hmid | ⟨a,ha,hax⟩
    · exact (h.reached x hmid).imp id fun ⟨a,ha,hax⟩ => ⟨a,List.mem_append_left _ ha,hax⟩
    · exact .inr ⟨a,List.mem_append_right _ ha,hax⟩
  closed x hx := by
    rcases h'.closed x hx with hmid | hnext
    · exact (h.closed x hmid).imp id fun hnext b hb => names_added h'.added (hnext b hb)
    · exact .inr hnext

/-- A node with a new name stands before what its successors add. -/
theorem searched_node {a : α} {seen out : List α} (ha : name a ∉ seen.map name)
    (h : Searched name next (next a) (seen ++ [a]) out) : Searched name next [a] seen out where
  added := (List.prefix_append seen [a]).trans h.added
  nodup hseen := h.nodup (by
    rw [List.map_append]
    exact hseen.append (List.nodup_singleton _) (List.disjoint_singleton.mpr ha))
  named := List.forall_mem_singleton.mpr
    (names_added h.added (List.mem_map.mpr ⟨a,List.mem_append_right _ List.mem_cons_self,rfl⟩))
  reached x hx := by
    rcases h.reached x hx with hseen | ⟨b,hb,hbx⟩
    · refine (List.mem_append.mp hseen).imp id fun hxa => ⟨a,List.mem_cons_self,?_⟩
      rw [List.mem_singleton.mp hxa]
      exact .refl
    · exact .inr ⟨a,List.mem_cons_self,.head hb hbx⟩
  closed x hx := by
    rcases h.closed x hx with hseen | hnext
    · refine (List.mem_append.mp hseen).imp id fun hxa => ?_
      rw [List.mem_singleton.mp hxa]
      exact h.named
    · exact .inr hnext

section Visits

variable [DecidableEq ν]

theorem searched_foldlM {depth : ℕ}
    (h : ∀ a seen out, visit name next depth a seen = some out → Searched name next [a] seen out)
    (roots : List α) {seen out : List α}
    (hout : roots.foldlM (fun seen b => visit name next depth b seen) seen = some out) :
    Searched name next roots seen out := by
  induction roots generalizing seen with
  | nil => exact Option.some.inj hout ▸ searched_nil seen
  | cons a roots ih =>
    rw [List.foldlM_cons] at hout
    obtain ⟨mid,hmid,hrest⟩ := Option.bind_eq_some_iff.mp hout
    exact searched_append (h a seen mid hmid) (ih hrest)

theorem searched_visit (depth : ℕ) (a : α) (seen out : List α)
    (hout : visit name next depth a seen = some out) : Searched name next [a] seen out := by
  induction depth generalizing a seen out with
  | zero => cases hout
  | succ depth ih =>
    rw [visit] at hout
    split at hout
    · next hmem =>
      obtain rfl := Option.some.inj hout
      exact {searched_nil seen with
        named := List.forall_mem_singleton.mpr hmem, reached := fun _ hx => .inl hx}
    · next hnew => exact searched_node hnew (searched_foldlM ih (next a) hout)

variable {nodes : Finset ν}

theorem foldlM_total {depth : ℕ}
    (h : ∀ a seen, name a ∈ nodes → (nodes \ (seen.map name).toFinset).card < depth →
      ∃ out, visit name next depth a seen = some out)
    (roots : List α) (hroots : ∀ a ∈ roots, name a ∈ nodes) (seen : List α)
    (hdepth : (nodes \ (seen.map name).toFinset).card < depth) :
    ∃ out, roots.foldlM (fun seen b => visit name next depth b seen) seen = some out := by
  induction roots generalizing seen with
  | nil => exact ⟨seen,rfl⟩
  | cons a roots ih =>
    obtain ⟨ha,hroots⟩ := List.forall_mem_cons.mp hroots
    obtain ⟨mid,hmid⟩ := h a seen ha hdepth
    have hsub : nodes \ (mid.map name).toFinset ⊆ nodes \ (seen.map name).toFinset := by
      refine Finset.sdiff_subset_sdiff (Finset.Subset.refl _) fun n hn => ?_
      rw [List.mem_toFinset] at hn ⊢
      exact names_added (searched_visit depth a seen mid hmid).added hn
    obtain ⟨out,hout⟩ := ih hroots mid ((Finset.card_le_card hsub).trans_lt hdepth)
    exact ⟨out,by rw [List.foldlM_cons, hmid]; exact hout⟩

theorem visit_total (hclosed : ∀ a, name a ∈ nodes → ∀ b ∈ next a, name b ∈ nodes) (depth : ℕ) (a : α)
    (seen : List α) (ha : name a ∈ nodes) (hdepth : (nodes \ (seen.map name).toFinset).card < depth) :
    ∃ out, visit name next depth a seen = some out := by
  induction depth generalizing a seen with
  | zero => exact absurd hdepth (Nat.not_lt_zero _)
  | succ depth ih =>
    rw [visit]
    split
    · exact ⟨seen,rfl⟩
    · next hnew =>
      apply foldlM_total ih (next a) (hclosed a ha) (seen ++ [a])
      have hsub : nodes \ ((seen ++ [a]).map name).toFinset ⊂ nodes \ (seen.map name).toFinset := by
        refine Finset.ssubset_iff_subset_ne.mpr ⟨?_,fun heq => ?_⟩
        · refine Finset.sdiff_subset_sdiff (Finset.Subset.refl _) fun n hn => ?_
          rw [List.mem_toFinset] at hn ⊢
          exact names_added (List.prefix_append seen [a]) hn
        · have hmem : name a ∈ nodes \ (seen.map name).toFinset :=
            Finset.mem_sdiff.mpr ⟨ha,fun h => hnew (List.mem_toFinset.mp h)⟩
          rw [← heq] at hmem
          refine (Finset.mem_sdiff.mp hmem).2 (List.mem_toFinset.mpr ?_)
          exact List.mem_map.mpr ⟨a,List.mem_append_right _ List.mem_cons_self,rfl⟩
      exact Nat.lt_of_lt_of_le (Finset.card_lt_card hsub) (Nat.le_of_lt_succ hdepth)

end Visits

/-- Where the nodes that are reached have names of their own, a search finds all of them. -/
theorem searched_all {a : α} {out : List α} (h : Searched name next [a] [] out)
    (hnames : ∀ x y, Reaches next a x → Reaches next a y → name x = name y → x = y) (x : α) :
    x ∈ out ↔ Reaches next a x := by
  have hreached {y : α} (hy : y ∈ out) : Reaches next a y := by
    rcases h.reached y hy with hnil | ⟨b,hb,hby⟩
    · exact absurd hnil List.not_mem_nil
    · exact List.mem_singleton.mp hb ▸ hby
  have hmem {y : α} (hy : Reaches next a y) (hname : name y ∈ out.map name) : y ∈ out := by
    obtain ⟨z,hz,hzy⟩ := List.mem_map.mp hname
    exact hnames z y (hreached hz) hy hzy ▸ hz
  refine ⟨hreached,fun hx => ?_⟩
  induction hx with
  | refl => exact hmem .refl (h.named a List.mem_cons_self)
  | @tail y z hay hyz ih =>
    rcases h.closed y ih with hnil | hnext
    · exact absurd hnil List.not_mem_nil
    · exact hmem (.tail hay hyz) (hnext z hyz)

end Search

end Vecoda.DepthFirst

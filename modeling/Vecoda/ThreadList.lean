import Mathlib.Data.List.Induction
import Vecoda.LuaText
import Vecoda.Registration

/-!
# The thread list of the adapter

vm.lua keeps a record for every CreateVM event, with the fields name and id.
The DestroyVM event hands the module itself to exitThread, which looks for it in
a field that no record has.
-/

set_option autoImplicit false

namespace Vecoda.ThreadList
open MessagePipe (Bytes)
open LuaText Backend Registration

inductive Value where
  | nil
  | integer (n : ℕ)
  | string (s : Bytes)
  | module
  deriving DecidableEq, Repr

abbrev Fields := List (Bytes × Value)

def get (t : Fields) (field : String) : Value := (t.lookup (text field)).getD .nil

structure Message where
  reason : Bytes
  threadId : Value
  deriving DecidableEq, Repr

structure Session where
  threads : List Fields
  messages : List Message

def initial : Session := ⟨[],[]⟩

def hex (n : ℕ) : Bytes :=
  let digits := (Nat.toDigits 16 n).map byte
  List.replicate (8-digits.length) (byte '0') ++ digits

def record (vm : ℕ) : Fields :=
  [(text "name",.string (text "Thread(0x" ++ hex vm ++ text ")")),(text "id",.integer vm)]

def newThread (s : Session) (vm : ℕ) : Session :=
  {threads := s.threads ++ [record vm], messages := s.messages ++ [⟨text "started",.integer vm⟩]}

def exitThread (s : Session) (vm : Value) : Session :=
  match s.threads.findIdx? (fun t => get t "threadId" = vm) with
  | some i => {threads := s.threads.eraseIdx i, messages := s.messages ++ [⟨text "exited",vm⟩]}
  | none => s

def update (s : Session) : Report → Session
  | .createVM L => newThread s L
  | .destroyVM _ => exitThread s .module
  | _ => s

def session (events : List Report) : Session := events.foldl update initial

def emitted (calls : List Call) : List Report := (calls.foldl perform DebugBackend.initial).reports

def destroyed (events : List Report) : List LuaState :=
  events.filterMap (fun
    | .destroyVM L => some L
    | _ => none)

def listed (s : Session) (L : LuaState) : ℕ := s.threads.countP (fun t => get t "id" = .integer L)

def exited (s : Session) (L : LuaState) : ℕ := s.messages.count ⟨text "exited",.integer L⟩

/-- The list has the live virtual machines, each of them once, and every other one
was reported to have exited as often as it was destroyed. -/
structure Mirrors (s : Session) (events : List Report) : Prop where
  live : ∀ L, listed s L = if L ∈ announced events then 1 else 0
  only : ∀ t ∈ s.threads, ∃ L, get t "id" = .integer L
  exits : ∀ L, exited s L = (destroyed events).count L

def created (events : List Report) : List LuaState :=
  events.filterMap (fun
    | .createVM L => some L
    | _ => none)

section Adapter

theorem get_record_threadId (L : LuaState) : get (record L) "threadId" = .nil := rfl

theorem get_record_id (L : LuaState) : get (record L) "id" = .integer L := rfl

theorem exitThread_module (s : Session) (vms : List LuaState) (h : s.threads = vms.map record) :
    exitThread s .module = s := by
  have hnone : s.threads.findIdx? (fun t => get t "threadId" = .module) = none := by
    rw [h, List.findIdx?_eq_none_iff]
    intro t ht
    obtain ⟨L,-,rfl⟩ := List.mem_map.mp ht
    rw [get_record_threadId]
    rfl
  rw [exitThread, hnone]

/-- The list only grows, and nothing is reported but the start of a thread. -/
theorem session_spec (events : List Report) :
    (session events).threads = (created events).map record ∧
    (session events).messages = (created events).map (fun L => ⟨text "started",.integer L⟩) := by
  induction events using List.reverseRecOn with
  | nil => exact ⟨rfl,rfl⟩
  | append_singleton events e ih =>
    have hstep : session (events ++ [e]) = update (session events) e := by
      rw [session, List.foldl_append]
      rfl
    have hcreated : created (events ++ [e]) = created events ++ created [e] :=
      List.filterMap_append
    rw [hstep, hcreated, List.map_append, List.map_append, ← ih.1, ← ih.2]
    cases e with
    | createVM L => exact ⟨rfl,rfl⟩
    | destroyVM L =>
      rw [update, exitThread_module _ _ ih.1]
      exact ⟨(List.append_nil _).symm,(List.append_nil _).symm⟩
    | _ => exact ⟨(List.append_nil _).symm,(List.append_nil _).symm⟩

theorem listed_session (events : List Report) (L : LuaState) :
    listed (session events) L = (created events).count L := by
  rw [listed, (session_spec events).1, List.countP_map, List.count]
  apply List.countP_congr
  intro M hM
  simp [get_record_id]

theorem exited_session (events : List Report) (L : LuaState) : exited (session events) L = 0 := by
  rw [exited, (session_spec events).2, List.count_eq_zero]
  intro h
  obtain ⟨M,-,hM⟩ := List.mem_map.mp h
  have hreason : text "started" = text "exited" := congrArg Message.reason hM
  exact absurd hreason (by decide)

end Adapter

section Backend

theorem announced_created (events : List Report) (h : destroyed events = []) :
    announced events = created events := by
  induction events using List.reverseRecOn with
  | nil => rfl
  | append_singleton events e ih =>
    rw [destroyed, List.filterMap_append, List.append_eq_nil_iff] at h
    rw [announced_append, ih h.1, created, created, List.filterMap_append]
    cases e with
    | destroyVM L => exact absurd h.2 (by simp)
    | createVM L => rfl
    | _ => exact (List.append_nil _).symm

/-- A virtual machine is announced once at a time, and then registered. -/
structure Heard (b : DebugBackend) : Prop extends Listed b where
  once : (announced b.reports).Nodup
  registered : ∀ L ∈ announced b.reports, L ∈ b.vms

theorem heard_perform (b : DebugBackend) (c : Call) (h : Heard b) : Heard (perform b c) := by
  suffices heard : (announced (perform b c).reports).Nodup ∧
      ∀ L ∈ announced (perform b c).reports, L ∈ (perform b c).vms from
    ⟨listed_step h.toListed rfl,heard.1,heard.2⟩
  cases c with
  | attach L attached checkstack =>
    by_cases hk : attached = true → L ∈ b.vms
    · rw [perform, attachState_known h.toListed hk]
      exact ⟨h.once,h.registered⟩
    · obtain ⟨rfl,hL⟩ := Classical.not_imp.mp hk
      obtain ⟨hvms,-,hreports,-⟩ := attachState_new h.toListed hL checkstack
      rw [perform, hvms, hreports]
      split
      · rw [announced_append, announce]
        refine ⟨?_,fun M hM => ?_⟩
        · exact List.nodup_append.mpr ⟨h.once,by simp,
            fun M hM N hN he => hL (List.mem_singleton.mp hN ▸ he ▸ h.registered M hM)⟩
        · exact List.mem_append.mpr ((List.mem_append.mp hM).imp_left (h.registered M))
      · exact ⟨h.once,fun M hM => List.mem_append_left _ (h.registered M hM)⟩
  | detach L =>
    obtain ⟨hvms,-,hreports⟩ := detachState_spec (L := L) h.toListed
    rw [perform, hvms, hreports]
    split
    · rw [announced_append, announce]
      refine ⟨h.once.filter _,fun M hM => ?_⟩
      obtain ⟨hM,hne⟩ := List.mem_filter.mp hM
      exact List.mem_filter.mpr ⟨h.registered M hM,hne⟩
    · rename_i hL
      rw [filter_other hL]
      exact ⟨h.once,h.registered⟩

theorem heard_calls (b : DebugBackend) (calls : List Call) (h : Heard b) :
    Heard (calls.foldl perform b) := by
  induction calls generalizing b with
  | nil => exact h
  | cons c calls ih => exact ih _ (heard_perform b c h)

theorem heard_initial : Heard DebugBackend.initial :=
  ⟨⟨List.nodup_nil,rfl⟩,List.nodup_nil,List.forall_mem_nil _⟩

end Backend

/-- The list mirrors the virtual machines exactly if none of them was destroyed. -/
theorem mirrors_iff (calls : List Call) :
    Mirrors (session (emitted calls)) (emitted calls) ↔ destroyed (emitted calls) = [] := by
  have heard := heard_calls _ calls heard_initial
  constructor
  · intro h
    rw [List.eq_nil_iff_forall_not_mem]
    intro L hL
    have hcount := h.exits L
    rw [exited_session] at hcount
    exact absurd hcount.symm (List.count_pos_iff.mpr hL).ne'
  · intro h
    refine ⟨fun L => ?_,fun t ht => ?_,fun L => ?_⟩
    · rw [listed_session, announced_created _ h]
      have hnodup : (created (emitted calls)).Nodup := by
        rw [← announced_created _ h]
        exact heard.once
      exact List.Nodup.count hnodup
    · rw [(session_spec _).1] at ht
      obtain ⟨L,-,rfl⟩ := List.mem_map.mp ht
      exact ⟨L,get_record_id L⟩
    · rw [exited_session, h]
      rfl

/-- A coroutine is created and collected. -/
theorem collected_not_mirrored :
    ¬ Mirrors (session (emitted [.attach 1 true true,.detach 1]))
      (emitted [.attach 1 true true,.detach 1]) := by
  intro h
  exact absurd (h.exits 1) (by decide)

end Vecoda.ThreadList

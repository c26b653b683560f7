import Vecoda.Thunks

/-!
# What a call thunk forwards

A thunk is entered and its function called under the calling convention of the
platform: the function gets the bound value and the arguments of the call, and
its caller the result and the registers it had. The function itself is only
known to keep the convention.
-/

set_option autoImplicit false

namespace Vecoda.Forwarding
open ByteMemory X86Machine Thunks

def argument : (a : Platform) → State a.bits → ℕ → BitVec a.bits
  | .x64, s, 0 => s.regs .cx
  | .x64, s, 1 => s.regs .dx
  | .x64, s, 2 => s.regs .r8
  | .x64, s, 3 => s.regs .r9
  | .x64, s, q+4 => readWord s.mem (off (s.regs .sp) (8 + 32 + 8*q))
  | .x86, s, q => readWord s.mem (off (s.regs .sp) (4 + 4*q))

/-- The bytes above its return address that belong to a function of `n` arguments. -/
def argumentArea : Platform → ℕ → ℕ
  | .x64, n => 32 + 8*(n-4)
  | .x86, n => 4*n

def calleeSaved : Platform → List Reg
  | .x64 => [.bx,.bp,.si,.di,.r12,.r13,.r14,.r15]
  | .x86 => [.bx,.bp,.si,.di]

/-- Registers that the thunks and the convention use otherwise. -/
theorem calleeSaved_apart {a : Platform} {reg : Reg} (h : reg ∈ calleeSaved a) :
    reg ≠ .sp ∧ reg ≠ .ax ∧ reg ≠ .cx := by
  have hall : ∀ a, ∀ r ∈ calleeSaved a, r ≠ .sp ∧ r ≠ .ax ∧ r ≠ .cx := by
    intro a
    cases a <;> decide
  exact hall a reg h

/-- The stack pointer before the return address was pushed is a multiple of 16. -/
def Aligned : (a : Platform) → State a.bits → Prop
  | .x64, s => (s.regs .sp + 8).toNat % 16 = 0
  | .x86, _ => True

/-- A function of `n` arguments, entered in `c`, returns in `r`. It keeps the stack from the end
of its arguments up to and with the return address at `top`. -/
structure Returned (a : Platform) (n : ℕ) (top : BitVec a.bits) (c r : State a.bits) : Prop where
  ip : r.ip = c.top
  sp : r.regs .sp = off (c.regs .sp) (a.bits/8)
  saved : ∀ reg ∈ calleeSaved a, r.regs reg = c.regs reg
  frame : ∀ x, a.bits/8 + argumentArea a n ≤ x → x < (top - c.regs .sp).toNat + a.bits/8 →
    r.mem (off (c.regs .sp) x) = c.mem (off (c.regs .sp) x)

/-- The return of the call that entered in `s`: the result and whatever else a function may change
are as in `r`. -/
structure Restored (a : Platform) (s r f : State a.bits) : Prop where
  ip : f.ip = s.top
  sp : f.regs .sp = off (s.regs .sp) (a.bits/8)
  saved : ∀ reg ∈ calleeSaved a, f.regs reg = s.regs reg
  result : ∀ reg, reg ≠ .sp → reg ∉ calleeSaved a → f.regs reg = r.regs reg

/-- The code has room, and what it writes into a signed byte fits: the displacement of its pushes
and the size of what it drops from the stack. -/
def Fits : (a : Platform) → BitVec a.bits → BitVec a.bits → BitVec a.bits → ℕ → Prop
  | .x64, p, function, upValue, n => (instanceFunction .x64 p function upValue n).length ≤ 2048
  | .x86, p, function, upValue, n => (instanceFunction .x86 p function upValue n).length ≤ 2048 ∧
      ∀ d ∈ [n*4,(n+1)*4], d < 128

/-- The thunk has called the function, to return to `next`: the return address is at `b`, and from
`low` above it the stack is that of `m`. -/
structure Calls (a : Platform) (s : State a.bits) (function upValue next : BitVec a.bits) (n : ℕ)
    (b : BitVec a.bits) (low : ℕ) (m : Memory a.bits) (c : State a.bits) : Prop where
  ip : c.ip = function
  sp : c.regs .sp = b
  top : c.top = next
  bound : argument a c 0 = upValue
  arguments : ∀ q < n, argument a c (q+1) = argument a s q
  saved : ∀ reg ∈ calleeSaved a, c.regs reg = s.regs reg
  above : ∀ x, low ≤ x → x + a.bits/8 ≤ 2^a.bits → readWord c.mem (off b x) = readWord m (off b x)

/-- The stack of the thunk, after the function. -/
theorem frame_kept {a : Platform} {s c r : State a.bits} {function upValue next b : BitVec a.bits}
    {n low d : ℕ} {m : Memory a.bits} (hc : Calls a s function upValue next n b low m c)
    (hr : Returned a (n+1) (s.regs .sp) c r) (hlow : a.bits/8 + argumentArea a (n+1) ≤ low)
    (hd : s.regs .sp = off b d) (hbound : d + a.bits/8 ≤ 2^a.bits) (hpos : 0 < a.bits/8) {x : ℕ}
    (hx : low ≤ x) (hxd : x ≤ d) : readWord r.mem (off b x) = readWord m (off b x) := by
  have hdistance : (s.regs .sp - c.regs .sp).toNat = d := by
    rw [hc.sp, hd]
    exact sub_off _ (by omega)
  rw [← hc.above x hx (by omega)]
  apply readWord_congr
  intro i hi
  rw [off_off, ← hc.sp]
  exact hr.frame (x + i) (by omega) (by omega)

section Wide

def base (s : State 64) (size : ℕ) : BitVec 64 := s.regs .sp - BitVec.ofNat 64 (size + 16)

theorem sp_base (s : State 64) (size : ℕ) : s.regs .sp = off (base s size) (size + 16) := by
  rw [off, base, BitVec.sub_add_cancel]

theorem rspSize_eq (n : ℕ) : rspSize n = (if n > 3 then 32 + (n + 1 - 4) * 8 else 32) + 15 -
    ((if n > 3 then 32 + (n + 1 - 4) * 8 else 32) + 15) % 16 := by
  rw [rspSize, fix16, Nat.shiftRight_eq_div_pow, Nat.shiftLeft_eq]
  omega

theorem rspSize_ge (n : ℕ) : 32 + 8*(n-3) ≤ rspSize n := by
  rw [rspSize_eq]
  split <;> omega

theorem rspSize_le (n : ℕ) : rspSize n ≤ 64 + 8*n := by
  rw [rspSize_eq]
  split <;> omega

theorem rspSize_aligned (n : ℕ) : rspSize n % 16 = 0 := by
  rw [rspSize_eq]
  omega

/-- The place of an argument for a return address at `b`. -/
def passed (b : BitVec 64) (t : State 64) : ℕ → BitVec 64
  | 0 => t.regs .cx
  | 1 => t.regs .dx
  | 2 => t.regs .r8
  | 3 => t.regs .r9
  | q+4 => readWord t.mem (off b (40 + 8*q))

theorem argument_passed (t : State 64) (q : ℕ) : argument .x64 t q = passed (t.regs .sp) t q := by
  match q with
  | 0 | 1 | 2 | 3 | q+4 => rfl

def argumentReg : ℕ → Reg
  | 0 => .cx
  | 1 => .dx
  | 2 => .r8
  | _ => .r9

theorem passed_reg {q : ℕ} (h : q < 4) (b : BitVec 64) (t : State 64) :
    passed b t q = t.regs (argumentReg q) := by
  match q with
  | 0 | 1 | 2 | 3 => rfl

theorem passed_stack {q : ℕ} (h : 4 ≤ q) (b : BitVec 64) (t : State 64) :
    passed b t q = readWord t.mem (off b (40 + 8*(q-4))) := by
  obtain ⟨k,rfl⟩ := Nat.exists_eq_add_of_le' h
  rfl

theorem argumentReg_injective {q q' : ℕ} (h : q < 4) (h' : q' < 4) (he : argumentReg q = argumentReg q') :
    q = q' := by
  have hall : ∀ q < 4, ∀ q' < 4, argumentReg q = argumentReg q' → q = q' := by decide
  exact hall q h q' h' he

theorem argumentReg_apart (q : ℕ) : argumentReg q ≠ .sp ∧ argumentReg q ≠ .ax ∧
    argumentReg q ∉ calleeSaved .x64 := by
  match q with
  | 0 | 1 | 2 => decide
  | _+3 =>
    change Reg.r9 ≠ .sp ∧ Reg.r9 ≠ .ax ∧ Reg.r9 ∉ calleeSaved .x64
    decide

def found (s : State 64) (size : ℕ) : Memory 64 :=
  writeWord s.mem (off (base s size) (size + 8)) (s.regs .di)

structure Shuffled (s : State 64) (n j : ℕ) (t : State 64) : Prop where
  sp : t.regs .sp = off (base s (rspSize n)) 8
  saved : ∀ reg ∈ calleeSaved .x64, t.regs reg = s.regs reg
  above : ∀ x, rspSize n + 8 ≤ x → x + 8 ≤ 2^64 →
    readWord t.mem (off (base s (rspSize n)) x) =
      readWord (found s (rspSize n)) (off (base s (rspSize n)) x)
  waiting : ∀ q < j, q < 4 → passed (base s (rspSize n)) t q = argument .x64 s q
  moved : ∀ q < n, j ≤ q → passed (base s (rspSize n)) t (q+1) = argument .x64 s q

variable {s t : State 64} {n j : ℕ}

/-- An argument that came on the stack is still where it was. -/
theorem argument_found (h : Shuffled s n j t) {q : ℕ} (hq : 4 ≤ q) (hbound : q < 2^32) (hn : n < 2^32) :
    readWord t.mem (off (base s (rspSize n)) (rspSize n + 56 + 8*(q-4))) = argument .x64 s q := by
  have hsize := rspSize_le n
  rw [h.above _ (by omega) (by omega), argument_passed, passed_stack hq, sp_base s (rspSize n), off_off,
    found, readWord_apart _ _ _ (by omega) (by omega) (by omega)]
  congr 2
  omega

theorem shuffled_register (h : Shuffled s n (j+1) t) (hj : j < 3) (hjn : j < n) :
    Shuffled s n j (effects t (moveBlock (rspSize n) (j+1))) := by
  have heffect : effects t (moveBlock (rspSize n) (j+1)) =
      {t with regs := Function.update t.regs (argumentReg (j+1)) (t.regs (argumentReg j))} := by
    match j with
    | 0 | 1 | 2 => rfl
  have hother : ∀ q, q ≠ j+1 → passed (base s (rspSize n))
      {t with regs := Function.update t.regs (argumentReg (j+1)) (t.regs (argumentReg j))} q =
      passed (base s (rspSize n)) t q := by
    intro q hq
    by_cases hreg : q < 4
    · rw [passed_reg hreg, passed_reg hreg]
      exact Function.update_of_ne (fun he => hq (argumentReg_injective hreg (by omega) he)) _ _
    · rw [passed_stack (by omega), passed_stack (by omega)]
  obtain ⟨hsp,-,hsaved⟩ := argumentReg_apart (j+1)
  rw [heffect]
  refine ⟨?_,?_,h.above,?_,?_⟩
  · exact (Function.update_of_ne (Ne.symm hsp) _ _).trans h.sp
  · intro reg hreg
    have hne : reg ≠ argumentReg (j+1) := fun he => hsaved (he ▸ hreg)
    exact (Function.update_of_ne hne _ _).trans (h.saved reg hreg)
  · intro q hq hreg
    rw [hother q (by omega)]
    exact h.waiting q (by omega) hreg
  · intro q hq hle
    by_cases he : q = j
    · subst he
      rw [passed_reg (by omega), ← h.waiting q (by omega) (by omega), passed_reg (by omega)]
      exact Function.update_self _ _ _
    · rw [hother (q+1) (by omega)]
      exact h.moved q hq (by omega)

/-- A word stored into the place behind the fourth, with `rax` used or not. -/
theorem shuffled_stored (h : Shuffled s n (j+1) t) (hj : 3 ≤ j) (hjn : j < n) (hn : n < 2^32)
    {regs : Reg → BitVec 64} (hregs : ∀ r, r ≠ .ax → regs r = t.regs r) :
    Shuffled s n j {t with regs := regs, mem := (writeWord t.mem
      (off (base s (rspSize n)) (40 + 8*(j-3))) (argument .x64 s j))} := by
  have hge := rspSize_ge n
  have hle := rspSize_le n
  refine ⟨?_,?_,?_,?_,?_⟩
  · exact (hregs .sp (by decide)).trans h.sp
  · intro reg hreg
    exact (hregs reg (calleeSaved_apart hreg).2.1).trans (h.saved reg hreg)
  · intro x hx hbound
    rw [readWord_apart _ _ _ (by omega) (by omega) (by omega)]
    exact h.above x hx hbound
  · intro q hq hreg
    rw [passed_reg hreg, ← h.waiting q (by omega) hreg, passed_reg hreg]
    exact hregs _ (argumentReg_apart q).2.1
  · intro q hq hjq
    rw [passed_stack (by omega), show q + 1 - 4 = q - 3 by omega]
    by_cases he : q = j
    · subst he
      exact readWord_writeWord rfl _ _ _
    · rw [readWord_apart _ _ _ (by omega) (by omega) (by omega), ← h.moved q hq (by omega),
        passed_stack (by omega), show q + 1 - 4 = q - 3 by omega]

theorem shuffled_stack (h : Shuffled s n (j+1) t) (hj : 3 ≤ j) (hjn : j < n) (hn : n < 2^32) :
    Shuffled s n j (effects t (moveBlock (rspSize n) (j+1))) := by
  by_cases hfourth : j = 3
  · subst hfourth
    have hvalue : t.regs .r9 = argument .x64 s 3 := h.waiting 3 (by omega) (by omega)
    have hplace : t.regs .sp + 0x20 = off (base s (rspSize n)) (40 + 8*(3-3)) := by
      rw [h.sp]
      exact off_off _ 8 32
    have heffect : effects t (moveBlock (rspSize n) (3+1)) =
        {t with mem := writeWord t.mem (t.regs .sp + 0x20) (t.regs .r9)} := rfl
    rw [heffect, hvalue, hplace]
    exact shuffled_stored h hj hjn hn (fun _ _ => rfl)
  · have hload : t.regs .sp + BitVec.ofNat 64 (srcRsp (rspSize n) (j+1)) =
        off (base s (rspSize n)) (rspSize n + 56 + 8*(j-4)) := by
      rw [h.sp, ← off, off_off, srcRsp]
      congr 1
      omega
    have hstore : t.regs .sp + BitVec.ofNat 64 (dstRsp (j+1)) =
        off (base s (rspSize n)) (40 + 8*(j-3)) := by
      rw [h.sp, ← off, off_off, dstRsp]
      congr 1
      omega
    have hvalue := argument_found h (q := j) (by omega) (by omega) hn
    have hblock : moveBlock (rspSize n) (j+1) =
        [(movRax 0x8b (srcRsp (rspSize n) (j+1)),
          .mov (.reg .ax) (.mem .sp (BitVec.ofNat 64 (srcRsp (rspSize n) (j+1))))),
         (movRax 0x89 (dstRsp (j+1)),
          .mov (.mem .sp (BitVec.ofNat 64 (dstRsp (j+1)))) (.reg .ax))] := by
      rw [moveBlock, if_neg (by omega), if_neg (by omega), if_neg (by omega), if_neg (by omega)]
    have heffect : effects t (moveBlock (rspSize n) (j+1)) =
        {t with
          regs := Function.update t.regs .ax (argument .x64 s j)
          mem := writeWord t.mem (t.regs .sp + BitVec.ofNat 64 (dstRsp (j+1))) (argument .x64 s j)} := by
      rw [hblock, ← hvalue, ← hload]
      rfl
    rw [heffect, hstore]
    exact shuffled_stored h hj hjn hn (fun r hr => Function.update_of_ne hr _ _)

theorem shuffled_step (h : Shuffled s n (j+1) t) (hjn : j < n) (hn : n < 2^32) :
    Shuffled s n j (effects t (moveBlock (rspSize n) (j+1))) := by
  by_cases hj : j < 3
  · exact shuffled_register h hj hjn
  · exact shuffled_stack h (by omega) hjn hn

/-- The whole loop, from the last argument down. -/
theorem shuffled_all (h : Shuffled s n j t) (hjn : j ≤ n) (hn : n < 2^32) :
    Shuffled s n 0 (effects t (movesBlock (rspSize n) j)) := by
  induction j generalizing t with
  | zero => exact h
  | succ j ih =>
    rw [movesBlock, effects_append]
    exact ih (shuffled_step h hjn hn) (by omega)

def prologue (n : ℕ) : List (List UInt8 × Instr 64) :=
  [([0x57],.push (.reg .di)),(adjustRsp 0xec (rspSize n),.sub (.reg .sp) (BitVec.ofNat 64 (rspSize n)))]

theorem shuffled_prologue (s : State 64) (n : ℕ) : Shuffled s n n (effects s (prologue n)) := by
  have hpush : s.regs .sp - BitVec.ofNat 64 (64/8) = off (base s (rspSize n)) (rspSize n + 8) := by
    rw [sp_base s (rspSize n)]
    exact off_sub _ (rspSize n + 8) 8
  have hframe : off (base s (rspSize n)) (rspSize n + 8) - BitVec.ofNat 64 (rspSize n) =
      off (base s (rspSize n)) 8 := by
    rw [Nat.add_comm]
    exact off_sub _ 8 (rspSize n)
  have heffect : effects s (prologue n) =
      {s with
        regs := Function.update (Function.update s.regs .sp (s.regs .sp - BitVec.ofNat 64 (64/8))) .sp
          (s.regs .sp - BitVec.ofNat 64 (64/8) - BitVec.ofNat 64 (rspSize n))
        mem := writeWord s.mem (s.regs .sp - BitVec.ofNat 64 (64/8)) (s.regs .di)} := rfl
  have hregs : ∀ r, r ≠ .sp → (effects s (prologue n)).regs r = s.regs r := by
    intro r hr
    rw [heffect]
    exact (Function.update_of_ne hr _ _).trans (Function.update_of_ne hr _ _)
  refine ⟨?_,?_,?_,?_,?_⟩
  · simp only [heffect, Function.update_self]
    rw [hpush, hframe]
  · intro reg hreg
    have hsp := (calleeSaved_apart hreg).1
    exact hregs reg hsp
  · intro x _ _
    rw [heffect, hpush, found]
  · intro q _ hreg
    rw [passed_reg hreg, argument_passed, passed_reg hreg]
    exact hregs _ (argumentReg_apart q).1
  · intro q hq hle
    omega

def calling (function upValue : BitVec 64) (n : ℕ) : List (List UInt8 × Instr 64) :=
  prologue n ++ movesBlock (rspSize n) n ++
    [([0x48,0xb9] ++ toBytes 8 upValue.toNat,.movImm .cx upValue),
     ([0x48,0xb8] ++ toBytes 8 function.toNat,.movImm .ax function)]

def returning (n : ℕ) : List (List UInt8 × Instr 64) :=
  [(adjustRsp 0xc4 (rspSize n),.add (.reg .sp) (BitVec.ofNat 64 (rspSize n))),([0x5f],.pop .di)]

theorem instanceFunction64_bytes (function upValue : BitVec 64) (n : ℕ) :
    instanceFunction64 function upValue n =
      [] ++ bytes (calling function upValue n) ++ [0xff,0xd0] ++ (bytes (returning n) ++ [0xc3]) := by
  rw [calling, bytes_append, bytes_append, movesBlock_bytes]
  simp [instanceFunction64, bytes, prologue, returning]

theorem movRax_length (opcode : UInt8) (offset : ℕ) : 5 ≤ (movRax opcode offset).length := by
  rw [movRax]
  split <;> simp [toBytes_length]

theorem moveArguments_length (size i : ℕ) : i ≤ (moveArguments size i).length := by
  induction i with
  | zero => exact Nat.zero_le _
  | succ i ih =>
    have hone : 1 ≤ (moveArgument size (i+1)).length := by
      rw [moveArgument]
      split_ifs
      · decide
      · decide
      · decide
      · decide
      · have := movRax_length 0x8b (srcRsp size (i+1))
        rw [List.length_append]
        omega
    rw [moveArguments, List.length_append]
    omega

theorem moveArguments_bound {function upValue : BitVec 64}
    (h : (instanceFunction64 function upValue n).length ≤ 2048) :
    n ≤ 2048 := by
  have hmoves := moveArguments_length (rspSize n) n
  simp only [instanceFunction64, List.length_append] at h
  omega

theorem calling_encoded {function upValue : BitVec 64} (h : n ≤ 2048) :
    Block (calling function upValue n) := by
  have hle := rspSize_le n
  have hprologue : Block (prologue n) :=
    block_cons (fun _ => rfl) rfl (block_cons (encodes_sub (by omega)) rfl block_nil)
  have hmoves : Block (movesBlock (rspSize n) n) := movesBlock_encoded (by rw [srcRsp]; omega)
  exact block_append (block_append hprologue hmoves) (block_cons (encodes_upValue upValue) rfl
    (block_cons (encodes_function function) rfl block_nil))

theorem returning_encoded (h : n ≤ 2048) : Block (returning n) := by
  have hle := rspSize_le n
  exact block_cons (encodes_add (by omega)) rfl (block_cons (fun _ => rfl) rfl block_nil)

def entered (s t : State 64) (function upValue next : BitVec 64) (n : ℕ) : State 64 where
  ip := function
  regs := Function.update (Function.update (Function.update t.regs .cx upValue) .ax function) .sp
    (base s (rspSize n))
  mem := writeWord t.mem (base s (rspSize n)) next

theorem entered_regs (s t : State 64) (function upValue next : BitVec 64) (n : ℕ) {r : Reg}
    (hsp : r ≠ .sp) (hax : r ≠ .ax) (hcx : r ≠ .cx) :
    (entered s t function upValue next n).regs r = t.regs r :=
  (Function.update_of_ne hsp _ _).trans
    ((Function.update_of_ne hax _ _).trans (Function.update_of_ne hcx _ _))

theorem entered_mem (s t : State 64) (function upValue next : BitVec 64) (n : ℕ) {x : ℕ}
    (hx : 8 ≤ x) (hbound : x + 8 ≤ 2^64) :
    readWord (entered s t function upValue next n).mem (off (base s (rspSize n)) x) =
      readWord t.mem (off (base s (rspSize n)) x) := by
  have happart := readWord_apart t.mem (base s (rspSize n)) next (x := 0) (y := x) (by omega) (by omega)
    (by omega)
  rw [off_zero] at happart
  exact happart

theorem entered_calls (h : Shuffled s n 0 t) (hn : n ≤ 2048) (function upValue next : BitVec 64) :
    Calls .x64 s function upValue next n (base s (rspSize n)) (rspSize n + 8) (found s (rspSize n))
      (entered s t function upValue next n) := by
  have hle := rspSize_le n
  refine ⟨rfl,rfl,?_,rfl,?_,?_,?_⟩
  · exact readWord_writeWord rfl _ _ _
  · intro q hq
    rw [← h.moved q hq (Nat.zero_le q), argument_passed]
    change passed (base s (rspSize n)) _ _ = _
    by_cases hreg : q + 1 < 4
    · rw [passed_reg hreg, passed_reg hreg]
      obtain ⟨hsp,hax,-⟩ := argumentReg_apart (q+1)
      refine entered_regs s t function upValue next n hsp hax (fun hcx => ?_)
      have hfirst : q + 1 = 0 := argumentReg_injective hreg (by omega) hcx
      omega
    · rw [passed_stack (by omega), passed_stack (by omega)]
      exact entered_mem s t function upValue next n (by omega) (by omega)
  · intro reg hreg
    rw [← h.saved reg hreg]
    obtain ⟨hsp,hax,hcx⟩ := calleeSaved_apart hreg
    exact entered_regs s t function upValue next n hsp hax hcx
  · intro x hx hbound
    rw [entered_mem s t function upValue next n (by omega) hbound]
    exact h.above x hx hbound

theorem calls_function {p function upValue : BitVec 64} (hn : n ≤ 2048)
    (hlen : (instanceFunction64 function upValue n).length ≤ 2048) (hip : s.ip = p) :
    ∃ c, Reaches p (instanceFunction64 function upValue n) s c ∧
      Calls .x64 s function upValue
        (off p ([] ++ bytes (calling function upValue n) ++ [0xff,0xd0]).length) n
        (base s (rspSize n)) (rspSize n + 8) (found s (rspSize n)) c := by
  have hshuffled := shuffled_all (shuffled_prologue s n) (le_refl n) (by omega)
  have heffects : effects s (calling function upValue n) =
      effects (effects (effects s (prologue n)) (movesBlock (rspSize n) n))
        [([0x48,0xb9] ++ toBytes 8 upValue.toNat,.movImm .cx upValue),
         ([0x48,0xb8] ++ toBytes 8 function.toNat,.movImm .ax function)] := by
    rw [calling, effects_append, effects_append]
  have hcall : Encodes [0xff,0xd0] (.call (.reg .ax) : Instr 64) := fun _ => rfl
  have hreach := block_exec (s := s) (p := p) (calling_encoded hn) hcall
    (instanceFunction64_bytes function upValue n) (by omega) (by rw [hip]; exact (off_zero p).symm)
  rw [heffects] at hreach
  generalize effects (effects s (prologue n)) (movesBlock (rspSize n) n) = t at hreach hshuffled
  have htop : base s (rspSize n) = t.regs .sp - BitVec.ofNat 64 (64/8) := by
    rw [hshuffled.sp]
    have hsub := off_sub (base s (rspSize n)) 0 8
    rw [off_zero, Nat.zero_add] at hsub
    exact hsub.symm
  refine ⟨_,hreach,?_⟩
  have hexec (next ip : BitVec 64) : exec next {effects t
      [([0x48,0xb9] ++ toBytes 8 upValue.toNat,.movImm .cx upValue),
       ([0x48,0xb8] ++ toBytes 8 function.toNat,.movImm .ax function)] with ip := ip} (.call (.reg .ax)) =
        entered s t function upValue next n := by
    rw [entered, htop]
    rfl
  rw [hexec]
  exact entered_calls hshuffled hn function upValue _

def left (r : State 64) (n : ℕ) : State 64 :=
  let saved := r.regs .sp + BitVec.ofNat 64 (rspSize n)
  let top := saved + BitVec.ofNat 64 (64/8)
  {ip := readWord r.mem top
   regs := Function.update (Function.update (Function.update (Function.update r.regs .sp saved)
     .sp top) .di (readWord r.mem saved)) .sp (top + BitVec.ofNat 64 (64/8))
   mem := r.mem}

theorem left_regs (r : State 64) (n : ℕ) {reg : Reg} (hsp : reg ≠ .sp) (hdi : reg ≠ .di) :
    (left r n).regs reg = r.regs reg :=
  (Function.update_of_ne hsp _ _).trans ((Function.update_of_ne hdi _ _).trans
    ((Function.update_of_ne hsp _ _).trans (Function.update_of_ne hsp _ _)))

theorem left_restored {next function upValue : BitVec 64} {c r : State 64} (hn : n ≤ 2048)
    (hc : Calls .x64 s function upValue next n (base s (rspSize n)) (rspSize n + 8)
      (found s (rspSize n)) c) (hr : Returned .x64 (n+1) (s.regs .sp) c r) :
    Restored .x64 s r (left r n) := by
  have hle := rspSize_le n
  have hge := rspSize_ge n
  have hkept (x : ℕ) (hx : rspSize n + 8 ≤ x) (hxd : x ≤ rspSize n + 16) :
      readWord r.mem (off (base s (rspSize n)) x) =
        readWord (found s (rspSize n)) (off (base s (rspSize n)) x) := by
    refine frame_kept hc hr ?_ (sp_base s (rspSize n)) ?_ (by decide) hx hxd
    · change 64/8 + (32 + 8*(n+1-4)) ≤ rspSize n + 8
      omega
    · change rspSize n + 16 + 64/8 ≤ 2^64
      omega
  have hsaved : r.regs .sp + BitVec.ofNat 64 (rspSize n) = off (base s (rspSize n)) (rspSize n + 8) := by
    rw [hr.sp, hc.sp, ← off, off_off]
    exact congrArg (off _) (Nat.add_comm 8 (rspSize n))
  have htop : off (base s (rspSize n)) (rspSize n + 8) + BitVec.ofNat 64 (64/8) = s.regs .sp := by
    rw [← off, off_off, sp_base s (rspSize n)]
  refine ⟨?_,?_,?_,?_⟩
  · change readWord r.mem (r.regs .sp + BitVec.ofNat 64 (rspSize n) + BitVec.ofNat 64 (64/8)) = s.top
    rw [hsaved, htop, sp_base s (rspSize n), hkept _ (by omega) (by omega), found,
      readWord_apart _ _ _ (by omega) (by omega) (by omega), ← sp_base s (rspSize n)]
    rfl
  · change r.regs .sp + BitVec.ofNat 64 (rspSize n) + BitVec.ofNat 64 (64/8) + BitVec.ofNat 64 (64/8) = _
    rw [hsaved, htop]
    rfl
  · intro reg hreg
    by_cases hdi : reg = .di
    · subst hdi
      change readWord r.mem (r.regs .sp + BitVec.ofNat 64 (rspSize n)) = s.regs .di
      rw [hsaved, hkept _ (by omega) (by omega), found]
      exact readWord_writeWord rfl _ _ _
    · have hsp : reg ≠ .sp := by
        rintro rfl
        exact absurd hreg (by decide)
      rw [← hc.saved reg hreg, ← hr.saved reg hreg]
      exact left_regs r n hsp hdi
  · intro reg hsp hreg
    have hdi : reg ≠ .di := by
      rintro rfl
      exact absurd hreg (by decide)
    exact left_regs r n hsp hdi

theorem returns_result {p function upValue : BitVec 64} {c r : State 64} (hn : n ≤ 2048)
    (hlen : (instanceFunction64 function upValue n).length ≤ 2048)
    (hc : Calls .x64 s function upValue
      (off p ([] ++ bytes (calling function upValue n) ++ [0xff,0xd0]).length) n
      (base s (rspSize n)) (rspSize n + 8) (found s (rspSize n)) c)
    (hr : Returned .x64 (n+1) (s.regs .sp) c r) :
    ∃ f, Reaches p (instanceFunction64 function upValue n) r f ∧ Restored .x64 s r f := by
  have hret : Encodes [0xc3] (.ret : Instr 64) := fun _ => rfl
  have hcode : instanceFunction64 function upValue n =
      ([] ++ bytes (calling function upValue n) ++ [0xff,0xd0]) ++ bytes (returning n) ++ [0xc3] ++ [] := by
    rw [instanceFunction64_bytes, ← List.append_assoc, List.append_nil]
  have hreach := block_exec (s := r) (p := p) (returning_encoded hn) hret hcode (by omega)
    (by rw [hr.ip, hc.top])
  exact ⟨_,hreach,left_restored hn hc hr⟩

theorem frame_aligned (b : BitVec 64) {x : ℕ} (hx : x % 16 = 0) (h : (off b x + 8).toNat % 16 = 0) :
    (b + 8).toNat % 16 = 0 := by
  rw [off, BitVec.toNat_add, BitVec.toNat_add, BitVec.toNat_ofNat] at h
  rw [BitVec.toNat_add]
  change (_ + 8) % _ % 16 = 0 at h
  change (_ + 8) % _ % 16 = 0
  omega

end Wide

section Narrow

def bottom (s : State 32) (n : ℕ) : BitVec 32 := s.regs .sp - BitVec.ofNat 32 (4*(n+2))

theorem sp_bottom (s : State 32) (n : ℕ) : s.regs .sp = off (bottom s n) (4*(n+2)) := by
  rw [off, bottom, BitVec.sub_add_cancel]

structure Pushed (s : State 32) (n k : ℕ) (t : State 32) : Prop where
  sp : t.regs .sp = off (bottom s n) (4*(n+2-k))
  regs : ∀ reg, reg ≠ .sp → t.regs reg = s.regs reg
  above : ∀ x, 4*(n+2) ≤ x → x + 4 ≤ 2^32 →
    readWord t.mem (off (bottom s n) x) = readWord s.mem (off (bottom s n) x)
  pushed : ∀ q < n, n ≤ q + k → readWord t.mem (off (bottom s n) (4*(q+2))) = argument .x86 s q

variable {s t : State 32} {n k : ℕ}

def pushInstr (n : ℕ) : Instr 32 := .push (.mem .sp (BitVec.ofNat 32 (n*4)))

theorem pushed_step (h : Pushed s n k t) (hk : k < n) (hn : (n+1)*4 < 128) :
    Pushed s n (k+1) (effect t (pushInstr n)) := by
  have htop : t.regs .sp - BitVec.ofNat 32 (32/8) = off (bottom s n) (4*(n+2-(k+1))) := by
    rw [h.sp, show 4*(n+2-k) = 4*(n+2-(k+1)) + 4 by omega]
    exact off_sub _ _ 4
  have hvalue : readWord t.mem (t.regs .sp + BitVec.ofNat 32 (n*4)) = argument .x86 s (n-1-k) := by
    rw [h.sp, ← off, off_off, h.above _ (by omega) (by omega), argument, sp_bottom s n, off_off]
    congr 2
    omega
  have heffect : effect t (pushInstr n) = {t with
      regs := Function.update t.regs .sp (off (bottom s n) (4*(n+2-(k+1))))
      mem := writeWord t.mem (off (bottom s n) (4*(n+2-(k+1)))) (argument .x86 s (n-1-k))} := by
    rw [← htop, ← hvalue]
    rfl
  rw [heffect]
  refine ⟨rfl,?_,?_,?_⟩
  · intro reg hreg
    exact (Function.update_of_ne hreg _ _).trans (h.regs reg hreg)
  · intro x hx hbound
    rw [← h.above x hx hbound]
    exact readWord_apart _ _ _ (.inl (by omega)) (by omega) (by omega)
  · intro q hq hle
    by_cases he : q = n-1-k
    · rw [show 4*(q+2) = 4*(n+2-(k+1)) by omega, he]
      exact readWord_writeWord rfl _ _ _
    · rw [← h.pushed q hq (by omega)]
      exact readWord_apart _ _ _ (.inl (by omega)) (by omega) (by omega)

theorem pushed_start (s : State 32) (n : ℕ) : Pushed s n 0 s :=
  ⟨sp_bottom s n,fun _ _ => rfl,fun _ _ _ => rfl,fun q hq hle => absurd hq (by omega)⟩

theorem pushed_all (h : Pushed s n k t) {m : ℕ} (hm : k + m ≤ n) (hn : (n+1)*4 < 128) :
    Pushed s n (k+m) (effects t (List.replicate m (pushArgument n,pushInstr n))) := by
  induction m generalizing k t with
  | zero => exact h
  | succ m ih =>
    rw [show k + (m+1) = k + 1 + m by omega]
    exact ih (pushed_step h (by omega) hn) (by omega)

def pushing (upValue : BitVec 32) (n : ℕ) : List (List UInt8 × Instr 32) :=
  List.replicate n (pushArgument n,pushInstr n) ++ [([0x68] ++ toBytes 4 upValue.toNat,.pushImm upValue)]

def cleaning (n : ℕ) : List (List UInt8 × Instr 32) :=
  [([0x83,0xc4,UInt8.ofNat ((n+1)*4)],.add (.reg .sp) (BitVec.ofNat 32 ((n+1)*4)))]

def distance (p function upValue : BitVec 32) (n : ℕ) : BitVec 32 :=
  function - p - BitVec.ofNat 32 ((bytes (pushing upValue n)).length + 1) - 4

theorem instanceFunction32_bytes (p function upValue : BitVec 32) (n : ℕ) :
    instanceFunction32 p function upValue n = [] ++ bytes (pushing upValue n) ++
      ([0xe8] ++ toBytes 4 (distance p function upValue n).toNat) ++ (bytes (cleaning n) ++ [0xc3]) := by
  have hpushing : bytes (pushing upValue n) = (List.replicate n (pushArgument n)).flatten ++
      ([0x68] ++ toBytes 4 upValue.toNat) := by
    rw [pushing, bytes_append, bytes, List.flatMap_def, List.map_replicate]
    simp [bytes]
  rw [distance, hpushing]
  simp [instanceFunction32, bytes, cleaning]

theorem pushing_encoded (upValue : BitVec 32) (hn : (n+1)*4 < 128) : Block (pushing upValue n) := by
  refine block_append (fun x hx => ?_) (block_cons (encodes_pushUpValue upValue) rfl block_nil)
  obtain rfl := List.eq_of_mem_replicate hx
  exact ⟨encodes_pushArgument hn,rfl⟩

theorem cleaning_encoded (hn : (n+1)*4 < 128) : Block (cleaning n) :=
  block_cons (encodes_clean hn) rfl block_nil

def pushedCall (s t : State 32) (function upValue next : BitVec 32) (n : ℕ) : State 32 where
  ip := function
  regs := Function.update (Function.update t.regs .sp (off (bottom s n) 4)) .sp (bottom s n)
  mem := writeWord (writeWord t.mem (off (bottom s n) 4) upValue) (bottom s n) next

theorem pushedCall_mem (s t : State 32) (function upValue next : BitVec 32) (n : ℕ) {x : ℕ}
    (hx : 8 ≤ x) (hbound : x + 4 ≤ 2^32) :
    readWord (pushedCall s t function upValue next n).mem (off (bottom s n) x) =
      readWord t.mem (off (bottom s n) x) := by
  have hnext := readWord_apart (writeWord t.mem (off (bottom s n) 4) upValue) (bottom s n) next
    (x := 0) (y := x) (by omega) (by omega) (by omega)
  rw [off_zero] at hnext
  exact hnext.trans (readWord_apart _ _ _ (by omega) (by omega) (by omega))

theorem pushedCall_calls (h : Pushed s n n t) (hn : (n+1)*4 < 128) (function upValue next : BitVec 32) :
    Calls .x86 s function upValue next n (bottom s n) (4*(n+2)) s.mem
      (pushedCall s t function upValue next n) := by
  refine ⟨rfl,rfl,?_,?_,?_,?_,?_⟩
  · exact readWord_writeWord rfl _ _ _
  · have hnext := readWord_apart (writeWord t.mem (off (bottom s n) 4) upValue) (bottom s n) next
      (x := 0) (y := 4) (by omega) (by omega) (by omega)
    rw [off_zero, readWord_writeWord rfl] at hnext
    exact hnext
  · intro q hq
    rw [← h.pushed q hq (by omega), argument]
    change readWord _ (off (bottom s n) _) = _
    rw [show 4 + 4*(q+1) = 4*(q+2) by omega]
    exact pushedCall_mem s t function upValue next n (by omega) (by omega)
  · intro reg hreg
    have hsp := (calleeSaved_apart hreg).1
    rw [← h.regs reg hsp]
    exact (Function.update_of_ne hsp _ _).trans (Function.update_of_ne hsp _ _)
  · intro x hx hbound
    rw [pushedCall_mem s t function upValue next n (by omega) hbound]
    exact h.above x hx hbound

theorem distance_reaches (p function upValue : BitVec 32) (n : ℕ) :
    off p ([] ++ bytes (pushing upValue n) ++ ([0xe8] ++
      toBytes 4 (distance p function upValue n).toNat)).length + distance p function upValue n = function := by
  have hlen : ([] ++ bytes (pushing upValue n) ++ ([0xe8] ++
      toBytes 4 (distance p function upValue n).toNat)).length = (bytes (pushing upValue n)).length + 1 + 4 := by
    rw [List.length_append, List.length_append, List.length_append, toBytes_length]
    simp [Nat.add_assoc]
  rw [hlen, distance, ← off_off]
  generalize (bytes (pushing upValue n)).length + 1 = k
  change p + BitVec.ofNat 32 k + 4 + (function - p - BitVec.ofNat 32 k - 4) = function
  grind

theorem pushes_and_calls {p function upValue : BitVec 32} (hn : (n+1)*4 < 128)
    (hlen : (instanceFunction32 p function upValue n).length ≤ 2048) (hip : s.ip = p) :
    ∃ c, Reaches p (instanceFunction32 p function upValue n) s c ∧
      Calls .x86 s function upValue (off p ([] ++ bytes (pushing upValue n) ++
        ([0xe8] ++ toBytes 4 (distance p function upValue n).toNat)).length) n (bottom s n)
        (4*(n+2)) s.mem c := by
  have hpushed := pushed_all (pushed_start s n) (m := n) (by omega) hn
  rw [Nat.zero_add] at hpushed
  have heffects : effects s (pushing upValue n) =
      effect (effects s (List.replicate n (pushArgument n,pushInstr n))) (.pushImm upValue) := by
    rw [pushing, effects_append]
    rfl
  have hreach := block_exec (s := s) (p := p) (pushing_encoded upValue hn) (encodes_callRel _)
    (instanceFunction32_bytes p function upValue n) (by omega) (by rw [hip]; exact (off_zero p).symm)
  rw [heffects] at hreach
  generalize effects s (List.replicate n (pushArgument n,pushInstr n)) = t at hreach hpushed
  have hbound : t.regs .sp - BitVec.ofNat 32 (32/8) = off (bottom s n) 4 := by
    rw [hpushed.sp, show 4*(n+2-n) = 4 + 4 by omega]
    exact off_sub _ 4 4
  have hreturn : off (bottom s n) 4 - BitVec.ofNat 32 (32/8) = bottom s n := by
    have hsub := off_sub (bottom s n) 0 4
    rw [off_zero, Nat.zero_add] at hsub
    exact hsub
  refine ⟨_,hreach,?_⟩
  have hfunction := distance_reaches p function upValue n
  generalize off p ([] ++ bytes (pushing upValue n) ++
    ([0xe8] ++ toBytes 4 (distance p function upValue n).toNat)).length = next at hfunction ⊢
  generalize distance p function upValue n = d at hfunction ⊢
  have hexec (ip : BitVec 32) : exec next {effect t (.pushImm upValue) with ip := ip} (.callRel d) =
      {ip := next + d
       regs := Function.update (Function.update t.regs .sp (t.regs .sp - BitVec.ofNat 32 (32/8))) .sp
         (t.regs .sp - BitVec.ofNat 32 (32/8) - BitVec.ofNat 32 (32/8))
       mem := writeWord (writeWord t.mem (t.regs .sp - BitVec.ofNat 32 (32/8)) upValue)
         (t.regs .sp - BitVec.ofNat 32 (32/8) - BitVec.ofNat 32 (32/8)) next} := rfl
  rw [hexec, hfunction, hbound, hreturn]
  exact pushedCall_calls hpushed hn function upValue next

def cleaned (r : State 32) (n : ℕ) : State 32 :=
  let top := r.regs .sp + BitVec.ofNat 32 ((n+1)*4)
  {ip := readWord r.mem top
   regs := Function.update (Function.update r.regs .sp top) .sp (top + BitVec.ofNat 32 (32/8))
   mem := r.mem}

theorem cleaned_restored {next function upValue : BitVec 32} {c r : State 32} (hn : (n+1)*4 < 128)
    (hc : Calls .x86 s function upValue next n (bottom s n) (4*(n+2)) s.mem c)
    (hr : Returned .x86 (n+1) (s.regs .sp) c r) : Restored .x86 s r (cleaned r n) := by
  have htop : r.regs .sp + BitVec.ofNat 32 ((n+1)*4) = off (bottom s n) (4*(n+2)) := by
    rw [hr.sp, hc.sp, ← off, off_off]
    apply congrArg (off _)
    change 4 + (n+1)*4 = 4*(n+2)
    omega
  have hkept :
      readWord r.mem (off (bottom s n) (4*(n+2))) = readWord s.mem (off (bottom s n) (4*(n+2))) := by
    refine frame_kept hc hr ?_ (sp_bottom s n) ?_ (by decide) (le_refl _) (le_refl _)
    · change 4 + 4*(n+1) ≤ 4*(n+2)
      omega
    · change 4*(n+2) + 4 ≤ 2^32
      omega
  have hregs (reg : Reg) (hsp : reg ≠ .sp) : (cleaned r n).regs reg = r.regs reg :=
    (Function.update_of_ne hsp _ _).trans (Function.update_of_ne hsp _ _)
  refine ⟨?_,?_,?_,fun reg hsp _ => hregs reg hsp⟩
  · change readWord r.mem (r.regs .sp + BitVec.ofNat 32 ((n+1)*4)) = s.top
    rw [htop, hkept, ← sp_bottom]
    rfl
  · change r.regs .sp + BitVec.ofNat 32 ((n+1)*4) + BitVec.ofNat 32 (32/8) = _
    rw [htop, ← sp_bottom]
    rfl
  · intro reg hreg
    have hsp := (calleeSaved_apart hreg).1
    rw [← hc.saved reg hreg, ← hr.saved reg hreg]
    exact hregs reg hsp

theorem cleans_result {p function upValue : BitVec 32} {c r : State 32} (hn : (n+1)*4 < 128)
    (hlen : (instanceFunction32 p function upValue n).length ≤ 2048)
    (hc : Calls .x86 s function upValue (off p ([] ++ bytes (pushing upValue n) ++
      ([0xe8] ++ toBytes 4 (distance p function upValue n).toNat)).length) n (bottom s n)
      (4*(n+2)) s.mem c)
    (hr : Returned .x86 (n+1) (s.regs .sp) c r) :
    ∃ f, Reaches p (instanceFunction32 p function upValue n) r f ∧ Restored .x86 s r f := by
  have hret : Encodes [0xc3] (.ret : Instr 32) := fun _ => rfl
  have hcode : instanceFunction32 p function upValue n = ([] ++ bytes (pushing upValue n) ++
      ([0xe8] ++ toBytes 4 (distance p function upValue n).toNat)) ++ bytes (cleaning n) ++ [0xc3] ++ [] := by
    rw [instanceFunction32_bytes, ← List.append_assoc, List.append_nil]
  have hreach := block_exec (s := r) (p := p) (cleaning_encoded hn) hret hcode (by omega)
    (by rw [hr.ip, hc.top])
  exact ⟨_,hreach,cleaned_restored hn hc hr⟩

end Narrow

/-- Entered in `s`, the thunk at `p` calls the function with the bound value and the arguments, the
stack aligned, and after its return it goes back with its result. -/
def Forwards (a : Platform) (n : ℕ) (p function upValue : BitVec a.bits) (s : State a.bits) : Prop :=
  ∃ c, Reaches p (instanceFunction a p function upValue n) s c ∧ c.ip = function ∧
    argument a c 0 = upValue ∧ (∀ q < n, argument a c (q+1) = argument a s q) ∧ Aligned a c ∧
    ∀ r, Returned a (n+1) (s.regs .sp) c r →
      ∃ f, Reaches p (instanceFunction a p function upValue n) r f ∧ Restored a s r f

theorem thunk_forwards (a : Platform) (n : ℕ) (p function upValue : BitVec a.bits)
    (hfits : Fits a p function upValue n) (s : State a.bits) (hip : s.ip = p) (haligned : Aligned a s) :
    Forwards a n p function upValue s := by
  cases a with
  | x64 =>
    have hn := moveArguments_bound hfits
    obtain ⟨c,hreach,hc⟩ := calls_function hn hfits hip
    refine ⟨c,hreach,hc.ip,hc.bound,hc.arguments,?_,fun r hr => returns_result hn hfits hc hr⟩
    have haligned : (off (base s (rspSize n)) (rspSize n + 16) + 8).toNat % 16 = 0 := by
      rw [← sp_base]
      exact haligned
    have hcall := frame_aligned _ (Nat.add_mod_right (rspSize n) 16 ▸ rspSize_aligned n) haligned
    rw [← hc.sp] at hcall
    exact hcall
  | x86 =>
    obtain ⟨hlen,hbytes⟩ := hfits
    have hn : (n+1)*4 < 128 := hbytes _ (by simp)
    obtain ⟨c,hreach,hc⟩ := pushes_and_calls hn hlen hip
    exact ⟨c,hreach,hc.ip,hc.bound,hc.arguments,trivial,fun r hr => cleans_result hn hlen hc hr⟩

def fresh {w : ℕ} (p sp : BitVec w) : State w := ⟨p,fun r => if r = .sp then sp else 0,fun _ => 0⟩

theorem thunk_forwards_five : Forwards .x64 5 0x10000 0x20000 7 (fresh 0x10000 0x8ff8) ∧
    Forwards .x86 5 0x10000 0x20000 7 (fresh 0x10000 0x8ffc) := by
  have hwide : Fits .x64 0x10000 0x20000 7 5 := by
    change (instanceFunction .x64 0x10000 0x20000 7 5).length ≤ 2048
    decide
  have haligned : Aligned .x64 (fresh 0x10000 0x8ff8) := by
    change (0x8ff8 + 8 : BitVec 64).toNat % 16 = 0
    decide
  have hnarrow : Fits .x86 0x10000 0x20000 7 5 := ⟨by decide,by decide⟩
  exact ⟨thunk_forwards .x64 5 0x10000 0x20000 7 hwide (fresh 0x10000 0x8ff8) rfl haligned,
    thunk_forwards .x86 5 0x10000 0x20000 7 hnarrow (fresh 0x10000 0x8ffc) rfl trivial⟩

end Vecoda.Forwarding

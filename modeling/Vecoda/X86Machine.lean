import Mathlib.Logic.Function.Basic
import Mathlib.Logic.Relation
import Vecoda.ByteMemory

/-!
# A part of the x86 instruction set

Stack, move, add, subtract, call and return instructions over words of any
width, with the encodings they have in 32-bit and in 64-bit mode. Flags and
faults are left out, and the code is taken to be apart from the memory written.
Code that encodes a list of instructions runs them.
-/

set_option autoImplicit false

namespace Vecoda.X86Machine
open ByteMemory

inductive Reg where
  | ax | cx | dx | bx | sp | bp | si | di | r8 | r9 | r10 | r11 | r12 | r13 | r14 | r15
  deriving DecidableEq, Repr

def Reg.numbered : ℕ → Reg
  | 0 => ax | 1 => cx | 2 => dx | 3 => bx | 4 => sp | 5 => bp | 6 => si | 7 => di
  | 8 => r8 | 9 => r9 | 10 => r10 | 11 => r11 | 12 => r12 | 13 => r13 | 14 => r14 | _ => r15

structure State (w : ℕ) where
  ip : BitVec w
  regs : Reg → BitVec w
  mem : Memory w

inductive Operand (w : ℕ) where
  | reg (r : Reg)
  | mem (base : Reg) (disp : BitVec w)

inductive Instr (w : ℕ) where
  | push (source : Operand w)
  | pushImm (v : BitVec w)
  | pop (r : Reg)
  | mov (target source : Operand w)
  | movImm (r : Reg) (v : BitVec w)
  | add (target : Operand w) (v : BitVec w)
  | sub (target : Operand w) (v : BitVec w)
  | call (target : Operand w)
  | callRel (disp : BitVec w)
  | ret

variable {w : ℕ}

section Executing

def State.get (s : State w) : Operand w → BitVec w
  | .reg r => s.regs r
  | .mem base disp => readWord s.mem (s.regs base + disp)

def State.set (s : State w) (v : BitVec w) : Operand w → State w
  | .reg r => {s with regs := Function.update s.regs r v}
  | .mem base disp => {s with mem := writeWord s.mem (s.regs base + disp) v}

def State.push (s : State w) (v : BitVec w) : State w :=
  let top := s.regs .sp - BitVec.ofNat w (w/8)
  {s with regs := Function.update s.regs .sp top, mem := writeWord s.mem top v}

def State.top (s : State w) : BitVec w := readWord s.mem (s.regs .sp)

def State.drop (s : State w) : State w :=
  {s with regs := Function.update s.regs .sp (s.regs .sp + BitVec.ofNat w (w/8))}

/-- `next` is the address behind the instruction. A source is read before the stack moves. -/
def exec (next : BitVec w) (s : State w) : Instr w → State w
  | .push source => {s.push (s.get source) with ip := next}
  | .pushImm v => {s.push v with ip := next}
  | .pop r => {s.drop.set s.top (.reg r) with ip := next}
  | .mov target source => {s.set (s.get source) target with ip := next}
  | .movImm r v => {s.set v (.reg r) with ip := next}
  | .add target v => {s.set (s.get target + v) target with ip := next}
  | .sub target v => {s.set (s.get target - v) target with ip := next}
  | .call target => {s.push next with ip := s.get target}
  | .callRel disp => {s.push next with ip := next + disp}
  | .ret => {s.drop with ip := s.top}

end Executing

section Decoding

structure Rex where
  w : Bool
  r : Bool
  x : Bool
  b : Bool

def Rex.ofByte (b : UInt8) : Rex :=
  ⟨b.toNat.testBit 3,b.toNat.testBit 2,b.toNat.testBit 1,b.toNat.testBit 0⟩

def extended (bit : Bool) (k : ℕ) : Reg := Reg.numbered (k + if bit then 8 else 0)

def signed8 (w : ℕ) (b : UInt8) : BitVec w := b.toBitVec.signExtend w

def signed32 (w : ℕ) (bs : List UInt8) : BitVec w := (BitVec.ofNat 32 (ofBytes bs)).signExtend w

def imm32 (w : ℕ) (bs : List UInt8) : Option (BitVec w) :=
  if 4 ≤ bs.length then some (signed32 w (bs.take 4)) else none

def immWord (w : ℕ) (bs : List UInt8) : Option (BitVec w) :=
  if w/8 ≤ bs.length then some (BitVec.ofNat w (ofBytes (bs.take (w/8)))) else none

def displacement (w : ℕ) (mode : ℕ) (bs : List UInt8) : Option (BitVec w × ℕ) :=
  match mode with
  | 0 => some (0,0)
  | 1 => bs.head?.map (fun b => (signed8 w b,1))
  | _ => (imm32 w bs).map (fun v => (v,4))

structure ModRM (w : ℕ) where
  digit : ℕ
  operand : Operand w
  length : ℕ

/-- A ModRM byte with what follows it. Of the memory operands, those with an index or
without a base register are left out. -/
def modRM (rex : Rex) : List UInt8 → Option (ModRM w)
  | [] => none
  | m::bs =>
    let mode := m.toNat / 64
    let digit := m.toNat / 8 % 8
    let rm := m.toNat % 8
    if mode = 3 then some ⟨digit,.reg (extended rex.b rm),1⟩
    else if rm = 4 then
      match bs with
      | [] => none
      | sib::bs =>
        let index := sib.toNat / 8 % 8
        let base := sib.toNat % 8
        if index = 4 ∧ rex.x = false ∧ ¬ (mode = 0 ∧ base = 5) then
          (displacement w mode bs).map
            (fun d => ⟨digit,.mem (extended rex.b base) d.1,2+d.2⟩)
        else none
    else if mode = 0 ∧ rm = 5 then none
    else (displacement w mode bs).map (fun d => ⟨digit,.mem (extended rex.b rm) d.1,1+d.2⟩)

def decodeOpcode (rex : Rex) : List UInt8 → Option (Instr w × ℕ)
  | [] => none
  | op::bs =>
    let op := op.toNat
    -- an operand of a word takes REX.W in 64-bit mode, except for stack and call instructions
    let word : Bool := w = 32 || rex.w
    if 0x50 ≤ op ∧ op < 0x58 then some (.push (.reg (extended rex.b (op - 0x50))),1)
    else if 0x58 ≤ op ∧ op < 0x60 then some (.pop (extended rex.b (op - 0x58)),1)
    else if op = 0x68 then (imm32 w bs).map (fun v => (.pushImm v,5))
    else if (op = 0x81 ∨ op = 0x83) ∧ word then do
      let m ← modRM rex bs
      let imm := bs.drop m.length
      let (v,k) ← if op = 0x81 then (imm32 w imm).map (·,4) else imm.head?.map (signed8 w ·,1)
      if m.digit = 0 then some (.add m.operand v,1+m.length+k)
      else if m.digit = 5 then some (.sub m.operand v,1+m.length+k)
      else none
    else if op = 0x89 ∧ word then
      (modRM rex bs).map
        (fun m => (.mov m.operand (.reg (extended rex.r m.digit)),1+m.length))
    else if op = 0x8b ∧ word then
      (modRM rex bs).map
        (fun m => (.mov (.reg (extended rex.r m.digit)) m.operand,1+m.length))
    else if 0xb8 ≤ op ∧ op < 0xc0 ∧ word then
      (immWord w bs).map (fun v => (.movImm (extended rex.b (op - 0xb8)) v,1+w/8))
    else if op = 0xc3 then some (.ret,1)
    else if op = 0xe8 then (imm32 w bs).map (fun v => (.callRel v,5))
    else if op = 0xff then do
      let m ← modRM rex bs
      if m.digit = 2 then some (.call m.operand,1+m.length)
      else if m.digit = 6 then some (.push m.operand,1+m.length)
      else none
    else none

def decode : List UInt8 → Option (Instr w × ℕ)
  | [] => none
  | b::bs =>
    if w = 64 ∧ 0x40 ≤ b.toNat ∧ b.toNat < 0x50 then
      (decodeOpcode (Rex.ofByte b) bs).map (fun i => (i.1,1+i.2))
    else decodeOpcode ⟨false,false,false,false⟩ (b::bs)

end Decoding

section Running

def step (p : BitVec w) (code : List UInt8) (s : State w) : Option (State w) :=
  (decode (code.drop (s.ip - p).toNat)).map (fun i => exec (off s.ip i.2) s i.1)

def Reaches (p : BitVec w) (code : List UInt8) : State w → State w → Prop :=
  Relation.ReflTransGen (fun s s' => step p code s = some s')

/-- The bytes encode the instruction, whatever stands behind them. -/
def Encodes (bs : List UInt8) (i : Instr w) : Prop :=
  ∀ rest, decode (bs ++ rest) = some (i,bs.length)

variable {p : BitVec w} {code before after bs : List UInt8} {s : State w} {i : Instr w}

theorem step_encoded (h : Encodes bs i) (hcode : code = before ++ bs ++ after)
    (hlen : code.length < 2^w) (hip : s.ip = off p before.length) :
    step p code s = some (exec (off p (before ++ bs).length) s i) := by
  have hfit : before.length < 2^w := by
    rw [hcode, List.length_append, List.length_append] at hlen
    omega
  have hdrop : code.drop before.length = bs ++ after := by
    rw [hcode, List.append_assoc, List.drop_left]
  rw [step, hip, sub_off p hfit, hdrop, h after, Option.map_some, off_off, List.length_append]

def effect (s : State w) (i : Instr w) : State w := exec s.ip s i

def straight : Instr w → Bool
  | .call _ | .callRel _ | .ret => false
  | _ => true

theorem exec_straight (h : straight i = true) (next : BitVec w) (s : State w) :
    exec next s i = {effect s i with ip := next} := by
  cases i with
  | call _ | callRel _ | ret => cases h
  | push _ | pushImm _ | pop _ | mov _ _ | movImm _ _ | add _ _ | sub _ _ => rfl

/-- Operands do not see the instruction pointer. -/
theorem effect_at (h : straight i = true) (ip : BitVec w) (s : State w) :
    effect {s with ip := ip} i = {effect s i with ip := ip} := by
  cases i with
  | call _ | callRel _ | ret => cases h
  | push o => cases o <;> rfl
  | pushImm _ | pop _ | movImm _ _ => rfl
  | mov t o => cases t <;> cases o <;> rfl
  | add t _ | sub t _ => cases t <;> rfl

def Block (block : List (List UInt8 × Instr w)) : Prop :=
  ∀ x ∈ block, Encodes x.1 x.2 ∧ straight x.2 = true

theorem block_nil : Block (w := w) [] := fun _ hx => nomatch hx

theorem block_cons {block : List (List UInt8 × Instr w)} (h : Encodes bs i) (hs : straight i = true)
    (hblock : Block block) : Block ((bs,i)::block) :=
  List.forall_mem_cons.mpr ⟨⟨h,hs⟩,hblock⟩

theorem block_append {xs ys : List (List UInt8 × Instr w)} (hx : Block xs) (hy : Block ys) :
    Block (xs ++ ys) :=
  fun x h => (List.mem_append.mp h).elim (hx x) (hy x)

def bytes (block : List (List UInt8 × Instr w)) : List UInt8 := block.flatMap (·.1)

theorem bytes_append (xs ys : List (List UInt8 × Instr w)) : bytes (xs ++ ys) = bytes xs ++ bytes ys :=
  List.flatMap_append

def effects (s : State w) (block : List (List UInt8 × Instr w)) : State w :=
  block.foldl (fun s x => effect s x.2) s

theorem effects_append (s : State w) (xs ys : List (List UInt8 × Instr w)) :
    effects s (xs ++ ys) = effects (effects s xs) ys := List.foldl_append

theorem effects_at {block : List (List UInt8 × Instr w)} (h : Block block) (ip : BitVec w)
    (s : State w) : effects {s with ip := ip} block = {effects s block with ip := ip} := by
  induction block generalizing s with
  | nil => rfl
  | cons x block ih =>
    obtain ⟨hx,hblock⟩ := List.forall_mem_cons.mp h
    rw [effects, List.foldl_cons, effect_at hx.2]
    exact ih hblock _

/-- Code that encodes a block runs it. -/
theorem block_reaches {block : List (List UInt8 × Instr w)} (h : Block block)
    (hcode : code = before ++ bytes block ++ after) (hlen : code.length < 2^w)
    (hip : s.ip = off p before.length) :
    Reaches p code s {effects s block with ip := off p (before ++ bytes block).length} := by
  induction block generalizing s before with
  | nil =>
    rw [show bytes ([] : List (List UInt8 × Instr w)) = [] from rfl, List.append_nil, ← hip]
    exact .refl
  | cons x block ih =>
    obtain ⟨hx,hblock⟩ := List.forall_mem_cons.mp h
    have hsplit : before ++ bytes (x::block) = before ++ x.1 ++ bytes block := by
      rw [bytes, List.flatMap_cons, List.append_assoc]
      rfl
    have hcode' : code = before ++ x.1 ++ bytes block ++ after := by rw [hcode, hsplit]
    have hfirst : code = before ++ x.1 ++ (bytes block ++ after) := by rw [hcode', List.append_assoc]
    have hstep := step_encoded hx.1 hfirst hlen hip
    rw [exec_straight hx.2] at hstep
    have hrest := ih (s := {effect s x.2 with ip := off p (before ++ x.1).length}) hblock hcode' rfl
    rw [effects_at hblock, ← hsplit] at hrest
    exact .head hstep hrest

/-- Code that encodes a block and an instruction after it, which need not go on with the next. -/
theorem block_exec {block : List (List UInt8 × Instr w)} (h : Block block) (hi : Encodes bs i)
    (hcode : code = before ++ bytes block ++ bs ++ after) (hlen : code.length < 2^w)
    (hip : s.ip = off p before.length) :
    Reaches p code s (exec (off p (before ++ bytes block ++ bs).length)
      {effects s block with ip := off p (before ++ bytes block).length} i) := by
  have hfirst : code = before ++ bytes block ++ (bs ++ after) := by rw [hcode, List.append_assoc]
  have hblock := block_reaches h hfirst hlen hip
  exact hblock.tail (step_encoded hi hcode hlen rfl)

end Running

end Vecoda.X86Machine

import Vecoda.X86Machine

/-!
# The code of a call thunk

The bytes `InstanceFunction` writes for either platform: the arguments move up
by one place, the bound value becomes the first, and the function is called.
Each piece of the code encodes the instruction meant.
-/

set_option autoImplicit false

namespace Vecoda.Thunks
open ByteMemory X86Machine

inductive Platform where
  | x64
  | x86
  deriving DecidableEq, Repr

@[reducible] def Platform.bits : Platform → ℕ
  | .x64 => 64
  | .x86 => 32

def fix16 (x : ℕ) : ℕ := ((x + 0xf) >>> 4) <<< 4

/-- The frame of the 64-bit thunk: the shadow of the registers, and the arguments after the fourth. -/
def rspSize (functionArgNum : ℕ) : ℕ :=
  fix16 (if functionArgNum > 3 then 32 + (functionArgNum + 1 - 4) * 8 else 32)

/-- `sub rsp` and `add rsp`, told apart by the ModRM byte. -/
def adjustRsp (m : UInt8) (size : ℕ) : List UInt8 :=
  if size ≥ 0x80 then [0x48,0x81,m] ++ toBytes 4 size else [0x48,0x83,m,UInt8.ofNat size]

def movRax (opcode : UInt8) (offset : ℕ) : List UInt8 :=
  if offset ≥ 0x80 then [0x48,opcode,0x84,0x24] ++ toBytes 4 offset
  else [0x48,opcode,0x44,0x24,UInt8.ofNat offset]

def srcRsp (size i : ℕ) : ℕ := size + 0x28 + (i - 4) * 8
def dstRsp (i : ℕ) : ℕ := 0x20 + (i - 4) * 8

def moveArgument (size i : ℕ) : List UInt8 :=
  if i = 1 then [0x48,0x8b,0xd1]
  else if i = 2 then [0x4c,0x8b,0xc2]
  else if i = 3 then [0x4d,0x8b,0xc8]
  else if i = 4 then [0x4c,0x89,0x4c,0x24,0x20]
  else movRax 0x8b (srcRsp size i) ++ movRax 0x89 (dstRsp i)

def moveArguments (size : ℕ) : ℕ → List UInt8
  | 0 => []
  | i+1 => moveArgument size (i+1) ++ moveArguments size i

def instanceFunction64 (function upValue : BitVec 64) (functionArgNum : ℕ) : List UInt8 :=
  let size := rspSize functionArgNum
  [0x57] ++ adjustRsp 0xec size ++ moveArguments size functionArgNum ++
    ([0x48,0xb9] ++ toBytes 8 upValue.toNat) ++ ([0x48,0xb8] ++ toBytes 8 function.toNat) ++
    [0xff,0xd0] ++ adjustRsp 0xc4 size ++ [0x5f] ++ [0xc3]

/-- `push [esp+functionArgNum*4]`, made in one number. -/
def pushArgument (functionArgNum : ℕ) : List UInt8 :=
  toBytes 4 (0x2474ff ||| (functionArgNum * 4) <<< 24)

def instanceFunction32 (p function upValue : BitVec 32) (functionArgNum : ℕ) : List UInt8 :=
  let pushes := (List.replicate functionArgNum (pushArgument functionArgNum)).flatten ++
    ([0x68] ++ toBytes 4 upValue.toNat)
  let callIndex := pushes.length + 1
  pushes ++ ([0xe8] ++ toBytes 4 (function - p - BitVec.ofNat 32 callIndex - 4).toNat) ++
    [0x83,0xc4,UInt8.ofNat ((functionArgNum + 1) * 4)] ++ [0xc3]

def instanceFunction : (a : Platform) → BitVec a.bits → BitVec a.bits → BitVec a.bits → ℕ → List UInt8
  | .x64, _, function, upValue, functionArgNum => instanceFunction64 function upValue functionArgNum
  | .x86, p, function, upValue, functionArgNum => instanceFunction32 p function upValue functionArgNum

section Encoding

theorem signed8_small {w d : ℕ} (h : d < 128) : signed8 w (UInt8.ofNat d) = BitVec.ofNat w d := by
  have hmsb : (UInt8.ofNat d).toBitVec.msb = false := by
    rw [BitVec.msb_eq_false_iff_two_mul_lt]
    simp
    omega
  rw [signed8, BitVec.signExtend_eq_setWidth_of_msb_false hmsb]
  apply BitVec.eq_of_toNat_eq
  rw [BitVec.toNat_setWidth, BitVec.toNat_ofNat]
  change d % 256 % 2^w = d % 2^w
  rw [Nat.mod_eq_of_lt (a := d) (by omega)]

theorem signed32_small {w v : ℕ} (h : v < 2^31) : signed32 w (toBytes 4 v) = BitVec.ofNat w v := by
  have hv : ofBytes (toBytes 4 v) = v := by
    rw [ofBytes_toBytes]
    omega
  have hmsb : (BitVec.ofNat 32 v).msb = false := by
    rw [BitVec.msb_eq_false_iff_two_mul_lt, BitVec.toNat_ofNat]
    omega
  rw [signed32, hv, BitVec.signExtend_eq_setWidth_of_msb_false hmsb]
  apply BitVec.eq_of_toNat_eq
  rw [BitVec.toNat_setWidth, BitVec.toNat_ofNat, BitVec.toNat_ofNat, Nat.mod_eq_of_lt (a := v) (by omega)]

/-- A four-byte immediate of a 32-bit word is the word. -/
theorem signed32_word (v : BitVec 32) : signed32 32 (toBytes 4 v.toNat) = v := by
  rw [signed32, ofBytes_toBytes, BitVec.signExtend_eq]
  apply BitVec.eq_of_toNat_eq
  have := v.isLt
  rw [BitVec.toNat_ofNat]
  omega

/-- An operand written in one byte where it will do, and in four where it will not. -/
theorem encodes_sized {w d : ℕ} (short long : List UInt8) (f : BitVec w → Instr w) (h : d < 2^31)
    (hshort : ∀ b, Encodes (short ++ [b]) (f (signed8 w b)))
    (hlong : ∀ v, Encodes (long ++ toBytes 4 v) (f (signed32 w (toBytes 4 v)))) :
    Encodes (if d ≥ 0x80 then long ++ toBytes 4 d else short ++ [UInt8.ofNat d]) (f (BitVec.ofNat w d)) := by
  split
  · rw [← signed32_small h]
    exact hlong d
  · rw [← signed8_small (d := d) (by omega)]
    exact hshort (UInt8.ofNat d)

theorem encodes_sub {size : ℕ} (h : size < 2^31) :
    Encodes (w := 64) (adjustRsp 0xec size) (.sub (.reg .sp) (BitVec.ofNat 64 size)) :=
  encodes_sized [0x48,0x83,0xec] [0x48,0x81,0xec] (.sub (.reg .sp)) h (fun _ _ => rfl) (fun _ _ => rfl)

theorem encodes_add {size : ℕ} (h : size < 2^31) :
    Encodes (w := 64) (adjustRsp 0xc4 size) (.add (.reg .sp) (BitVec.ofNat 64 size)) :=
  encodes_sized [0x48,0x83,0xc4] [0x48,0x81,0xc4] (.add (.reg .sp)) h (fun _ _ => rfl) (fun _ _ => rfl)

theorem encodes_load {offset : ℕ} (h : offset < 2^31) : Encodes (w := 64) (movRax 0x8b offset)
    (.mov (.reg .ax) (.mem .sp (BitVec.ofNat 64 offset))) :=
  encodes_sized [0x48,0x8b,0x44,0x24] [0x48,0x8b,0x84,0x24] (fun d => .mov (.reg .ax) (.mem .sp d)) h
    (fun _ _ => rfl) (fun _ _ => rfl)

theorem encodes_store {offset : ℕ} (h : offset < 2^31) : Encodes (w := 64) (movRax 0x89 offset)
    (.mov (.mem .sp (BitVec.ofNat 64 offset)) (.reg .ax)) :=
  encodes_sized [0x48,0x89,0x44,0x24] [0x48,0x89,0x84,0x24] (fun d => .mov (.mem .sp d) (.reg .ax)) h
    (fun _ _ => rfl) (fun _ _ => rfl)

theorem ofBytes_word (v : BitVec 64) : BitVec.ofNat 64 (ofBytes (toBytes 8 v.toNat)) = v := by
  have := v.isLt
  rw [ofBytes_toBytes]
  apply BitVec.eq_of_toNat_eq
  rw [BitVec.toNat_ofNat]
  omega

theorem immWord_bytes (v : BitVec 64) (rest : List UInt8) :
    immWord 64 (toBytes 8 v.toNat ++ rest) = some v := by
  have hlen : (toBytes 8 v.toNat).length = 64/8 := toBytes_length 8 v.toNat
  have hle : 64/8 ≤ (toBytes 8 v.toNat ++ rest).length := by
    rw [List.length_append, hlen]
    exact Nat.le_add_right _ _
  rw [immWord, if_pos hle, List.take_left' hlen, ofBytes_word]

/-- A move of a word into a register, by what its opcode decodes to. -/
theorem encodes_word {op : UInt8} {r : Reg} (hop : ∀ bs : List UInt8,
    decodeOpcode (w := 64) ⟨true,false,false,false⟩ (op::bs) =
      (immWord 64 bs).map (fun v => (.movImm r v,9))) (v : BitVec 64) :
    Encodes ([0x48,op] ++ toBytes 8 v.toNat) (.movImm r v) := by
  intro rest
  have hword := congrArg (Option.map (fun i : Instr 64 × ℕ => (i.1,1+i.2)))
    (hop (toBytes 8 v.toNat ++ rest))
  rw [immWord_bytes] at hword
  exact hword

theorem encodes_upValue (v : BitVec 64) : Encodes ([0x48,0xb9] ++ toBytes 8 v.toNat) (.movImm .cx v) :=
  encodes_word (fun bs => by simp [decodeOpcode, extended, Reg.numbered]) v

theorem encodes_function (v : BitVec 64) : Encodes ([0x48,0xb8] ++ toBytes 8 v.toNat) (.movImm .ax v) :=
  encodes_word (fun bs => by simp [decodeOpcode, extended, Reg.numbered]) v

def moveBlock (size i : ℕ) : List (List UInt8 × Instr 64) :=
  if i = 1 then [([0x48,0x8b,0xd1],.mov (.reg .dx) (.reg .cx))]
  else if i = 2 then [([0x4c,0x8b,0xc2],.mov (.reg .r8) (.reg .dx))]
  else if i = 3 then [([0x4d,0x8b,0xc8],.mov (.reg .r9) (.reg .r8))]
  else if i = 4 then [([0x4c,0x89,0x4c,0x24,0x20],.mov (.mem .sp 0x20) (.reg .r9))]
  else [(movRax 0x8b (srcRsp size i),.mov (.reg .ax) (.mem .sp (BitVec.ofNat 64 (srcRsp size i)))),
    (movRax 0x89 (dstRsp i),.mov (.mem .sp (BitVec.ofNat 64 (dstRsp i))) (.reg .ax))]

def movesBlock (size : ℕ) : ℕ → List (List UInt8 × Instr 64)
  | 0 => []
  | i+1 => moveBlock size (i+1) ++ movesBlock size i

theorem moveBlock_bytes (size i : ℕ) : bytes (moveBlock size i) = moveArgument size i := by
  rw [moveBlock, moveArgument]
  split_ifs <;> simp [bytes]

theorem movesBlock_bytes (size i : ℕ) : bytes (movesBlock size i) = moveArguments size i := by
  induction i with
  | zero => rfl
  | succ i ih =>
    rw [movesBlock, moveArguments, bytes_append, moveBlock_bytes, ih]

theorem moveBlock_encoded {size i : ℕ} (h : srcRsp size i < 2^31) : Block (moveBlock size i) := by
  have hdst : dstRsp i < 2^31 := by
    rw [srcRsp] at h
    rw [dstRsp]
    omega
  rw [moveBlock]
  split_ifs
  · exact block_cons (fun _ => rfl) rfl block_nil
  · exact block_cons (fun _ => rfl) rfl block_nil
  · exact block_cons (fun _ => rfl) rfl block_nil
  · exact block_cons (fun _ => rfl) rfl block_nil
  · exact block_cons (encodes_load h) rfl (block_cons (encodes_store hdst) rfl block_nil)

theorem movesBlock_encoded {size i : ℕ} (h : srcRsp size i < 2^31) : Block (movesBlock size i) := by
  induction i with
  | zero => exact block_nil
  | succ i ih =>
    have hi : srcRsp size i < 2^31 := by
      rw [srcRsp] at h ⊢
      omega
    exact block_append (moveBlock_encoded h) (ih hi)

theorem pushArgument_bytes {functionArgNum : ℕ} (h : (functionArgNum + 1) * 4 < 128) :
    pushArgument functionArgNum = [0xff,0x74,0x24,UInt8.ofNat (functionArgNum * 4)] := by
  have hall : ∀ n < 31, pushArgument n = [0xff,0x74,0x24,UInt8.ofNat (n * 4)] := by decide
  exact hall functionArgNum (by omega)

theorem encodes_pushArgument {functionArgNum : ℕ} (h : (functionArgNum + 1) * 4 < 128) :
    Encodes (w := 32) (pushArgument functionArgNum)
      (.push (.mem .sp (BitVec.ofNat 32 (functionArgNum * 4)))) := by
  intro rest
  rw [pushArgument_bytes h, ← signed8_small (d := functionArgNum * 4) (by omega)]
  rfl

theorem encodes_pushUpValue (v : BitVec 32) : Encodes ([0x68] ++ toBytes 4 v.toNat) (.pushImm v) := by
  intro rest
  conv_rhs => rw [← signed32_word v]
  rfl

theorem encodes_callRel (v : BitVec 32) : Encodes ([0xe8] ++ toBytes 4 v.toNat) (.callRel v) := by
  intro rest
  conv_rhs => rw [← signed32_word v]
  rfl

theorem encodes_clean {size : ℕ} (h : size < 128) : Encodes (w := 32) [0x83,0xc4,UInt8.ofNat size]
    (.add (.reg .sp) (BitVec.ofNat 32 size)) := by
  intro rest
  rw [← signed8_small h]
  rfl

/-- With 31 arguments the size to drop is read back as negative. -/
example : decode (w := 32) [0x83,0xc4,UInt8.ofNat ((31+1)*4)] = some (.add (.reg .sp) (-128),3) := rfl

end Encoding

end Vecoda.Thunks

import Mathlib.Algebra.Ring.Nat
import Mathlib.Data.Nat.Init
import Mathlib.Tactic.Ring

/-!
# A memory of bytes

Words stored little-endian at addresses that wrap. A write changes one range,
and ranges are compared by their offsets from a base.
-/

set_option autoImplicit false

namespace Vecoda.ByteMemory

abbrev Memory (w : ℕ) := BitVec w → UInt8

def ofBytes : List UInt8 → ℕ
  | [] => 0
  | b::bs => b.toNat + 256 * ofBytes bs

def toBytes : ℕ → ℕ → List UInt8
  | 0, _ => []
  | k+1, v => UInt8.ofNat v :: toBytes k (v / 256)

theorem toBytes_length (k v : ℕ) : (toBytes k v).length = k := by
  induction k generalizing v with
  | zero => rfl
  | succ k ih => rw [toBytes, List.length_cons, ih]

theorem ofBytes_toBytes (k v : ℕ) : ofBytes (toBytes k v) = v % 256^k := by
  induction k generalizing v with
  | zero => simp [toBytes, ofBytes, Nat.mod_one]
  | succ k ih =>
    rw [toBytes, ofBytes, ih, UInt8.toNat_ofNat', pow_succ' 256 k, Nat.mod_mul]

variable {w : ℕ}

def off (b : BitVec w) (x : ℕ) : BitVec w := b + BitVec.ofNat w x

theorem off_zero (b : BitVec w) : off b 0 = b := BitVec.add_zero b

theorem off_off (b : BitVec w) (x y : ℕ) : off (off b x) y = off b (x + y) := by
  rw [off, off, off, BitVec.add_assoc, BitVec.ofNat_add]

theorem off_sub (b : BitVec w) (x y : ℕ) : off b (x + y) - BitVec.ofNat w y = off b x := by
  rw [← off_off, off, BitVec.add_sub_cancel]

theorem sub_off (b : BitVec w) {x : ℕ} (h : x < 2^w) : (off b x - b).toNat = x := by
  rw [off, BitVec.add_comm, BitVec.add_sub_cancel, BitVec.toNat_ofNat, Nat.mod_eq_of_lt h]

/-- The distance from one offset up to another, around the end of the memory if it is below. -/
theorem off_sub_off (b : BitVec w) {x y : ℕ} (hx : x < 2^w) (hy : y < 2^w) :
    (off b y - off b x).toNat = if x ≤ y then y - x else 2^w + y - x := by
  by_cases hle : x ≤ y
  · rw [if_pos hle]
    obtain ⟨k,rfl⟩ := Nat.exists_eq_add_of_le hle
    rw [← off_off, sub_off _ (by omega)]
    omega
  · rw [if_neg hle]
    obtain ⟨k,rfl⟩ := Nat.exists_eq_add_of_le (Nat.le_of_not_le hle)
    have hwrap : off b y = off (off b (y + k)) (2^w - k) := by
      have hzero : BitVec.ofNat w (2^w) = 0 := by
        apply BitVec.eq_of_toNat_eq
        rw [BitVec.toNat_ofNat, Nat.mod_self]
        rfl
      rw [off_off, off, off, show y + k + (2^w - k) = y + 2^w by omega, BitVec.ofNat_add, hzero]
      exact congrArg (b + ·) (BitVec.add_zero _).symm
    rw [hwrap, sub_off _ (by omega)]
    omega

def read (m : Memory w) (a : BitVec w) (k : ℕ) : List UInt8 := (List.range k).map (fun i => m (off a i))

def write (m : Memory w) (a : BitVec w) (bs : List UInt8) : Memory w :=
  fun x => (bs[(x - a).toNat]?).getD (m x)

theorem read_write (m : Memory w) (a : BitVec w) (bs : List UInt8) (h : bs.length ≤ 2^w) :
    read (write m a bs) a bs.length = bs := by
  apply List.ext_getElem
  · simp [read]
  · intro i _ hi
    have hoff : (off a i - a).toNat = i := sub_off a (Nat.lt_of_lt_of_le hi h)
    simp only [read, write, List.getElem_map, List.getElem_range, hoff, List.getElem?_eq_getElem hi,
      Option.getD_some]

theorem write_apart (m : Memory w) (a x : BitVec w) (bs : List UInt8) (h : bs.length ≤ (x - a).toNat) :
    write m a bs x = m x := by
  rw [write, List.getElem?_eq_none h, Option.getD_none]

theorem read_congr {m m' : Memory w} {a : BitVec w} {k : ℕ} (h : ∀ i < k, m' (off a i) = m (off a i)) :
    read m' a k = read m a k :=
  List.map_congr_left (fun i hi => h i (List.mem_range.mp hi))

/-- Ranges that do not meet do not disturb one another. -/
theorem read_write_apart (m : Memory w) (b : BitVec w) {x y k : ℕ} {bs : List UInt8}
    (h : x + bs.length ≤ y ∨ y + k ≤ x) (hx : x + bs.length ≤ 2^w) (hy : y + k ≤ 2^w) :
    read (write m (off b x) bs) (off b y) k = read m (off b y) k := by
  apply read_congr
  intro i hi
  rcases Nat.eq_zero_or_pos bs.length with hz | hpos
  · exact write_apart _ _ _ _ (by omega)
  · apply write_apart
    rw [off_off, off_sub_off b (by omega) (by omega)]
    split <;> omega

section Words

def readWord (m : Memory w) (a : BitVec w) : BitVec w := BitVec.ofNat w (ofBytes (read m a (w/8)))

def writeWord (m : Memory w) (a : BitVec w) (v : BitVec w) : Memory w := write m a (toBytes (w/8) v.toNat)

theorem readWord_writeWord (hw : 8 * (w/8) = w) (m : Memory w) (a v : BitVec w) :
    readWord (writeWord m a v) a = v := by
  have hlen := toBytes_length (w/8) v.toNat
  have hfit : (toBytes (w/8) v.toNat).length ≤ 2^w := by
    rw [hlen]
    exact (Nat.div_le_self w 8).trans Nat.lt_two_pow_self.le
  have hread := read_write m a _ hfit
  rw [hlen] at hread
  have hpow : 256^(w/8) = 2^w := by
    rw [show 256 = 2^8 by rfl, ← pow_mul, hw]
  rw [readWord, writeWord, hread, ofBytes_toBytes, hpow, Nat.mod_eq_of_lt v.isLt, BitVec.ofNat_toNat,
    BitVec.setWidth_eq]

theorem readWord_apart (m : Memory w) (b v : BitVec w) {x y : ℕ} (h : x + w/8 ≤ y ∨ y + w/8 ≤ x)
    (hx : x + w/8 ≤ 2^w) (hy : y + w/8 ≤ 2^w) :
    readWord (writeWord m (off b x) v) (off b y) = readWord m (off b y) := by
  rw [readWord, readWord, writeWord, read_write_apart]
  · rwa [toBytes_length]
  · rwa [toBytes_length]
  · exact hy

theorem readWord_congr {m m' : Memory w} {a : BitVec w} (h : ∀ i < w/8, m' (off a i) = m (off a i)) :
    readWord m' a = readWord m a := by
  rw [readWord, readWord, read_congr h]

end Words

end Vecoda.ByteMemory

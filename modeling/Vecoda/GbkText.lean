import Vecoda.ExpandedTable

/-!
# Texts in GBK

The table of codes as it is loaded from its file, and the conversion of a text
read as a sequence of characters: an ASCII byte or a code of two bytes. The
width of a character is decided on its first byte, with the byte 0x7F on the
wrong side of the comparison.
-/

set_option autoImplicit false

namespace Vecoda.GbkText
open MessagePipe LuaText ExpandedTable

/-- `f:read(len)`: what is left if it is shorter, and nil at the end of the file. -/
def readText (len : ℕ) (rest : Bytes) : Option Bytes :=
  if rest = [] then none else some (rest.take len)

/-- encoding.lua `loadDatabase`, from the bytes of the file: a record without its length raises. -/
def loadDatabase (file : Bytes) (map : ℕ → Option Bytes) : Lua (ℕ → Option Bytes) :=
  match file with
  | [] => .ok map
  | low::high::len::rest =>
    loadDatabase (rest.drop len.toNat)
      (Function.update map (low.toNat + high.toNat <<< 8) (readText len.toNat rest))
  | _ => .error .raised
termination_by file.length
decreasing_by simp only [List.length_cons, List.length_drop]; omega

def Loaded (d : ℕ → Option Bytes) : Prop := ∃ file, loadDatabase file (fun _ => none) = .ok d

theorem empty_loaded : Loaded (fun _ => none) := ⟨[],by rw [loadDatabase]⟩

/-- A character of a text in GBK: an ASCII byte, or a lead byte with any trail byte. -/
inductive Character where
  | ascii (b : UInt8) (h : b ≤ 0x7F)
  | double (lead trail : UInt8) (h : 0x81 ≤ lead ∧ lead ≤ 0xFE)
  deriving DecidableEq

def Character.bytes : Character → Bytes
  | .ascii b _ => [b]
  | .double lead trail _ => [lead,trail]

def Character.image (d : ℕ → Option Bytes) : Character → Bytes
  | .ascii b _ => [b]
  | .double lead trail _ => (d (trail.toNat + lead.toNat <<< 8)).getD (text "?")

def Character.isDel (c : Character) : Bool := c.bytes = [0x7F]

def encode (s : List Character) : Bytes := s.flatMap Character.bytes

def images (d : ℕ → Option Bytes) (s : List Character) : Bytes := s.flatMap (Character.image d)

theorem gbk2utf8_bytes (d : ℕ → Option Bytes) (c : Character) (h : c.isDel = false) (rest : Bytes) :
    gbk2utf8 d (c.bytes ++ rest) = c.image d ++ gbk2utf8 d rest := by
  cases c with
  | ascii b hb =>
    have hne : b ≠ 0x7F := fun he => by simp [Character.isDel, Character.bytes, he] at h
    have hlt : b < 127 := UInt8.lt_of_le_of_ne hb hne
    show gbk2utf8 d (b::rest) = b :: gbk2utf8 d rest
    cases rest <;> simp only [gbk2utf8, if_pos hlt]
  | double lead trail hlead =>
    have hge : ¬ lead < 127 := UInt8.not_lt.mpr (UInt8.le_trans (by decide : (127 : UInt8) ≤ 0x81) hlead.1)
    show gbk2utf8 d (lead::trail::rest) = _
    rw [gbk2utf8, if_neg hge]
    rfl

theorem gbk2utf8_encode (d : ℕ → Option Bytes) (s : List Character) (h : ∀ c ∈ s, c.isDel = false)
    (rest : Bytes) : gbk2utf8 d (encode s ++ rest) = images d s ++ gbk2utf8 d rest := by
  induction s with
  | nil => rfl
  | cons c s ih =>
    obtain ⟨hc,hs⟩ := List.forall_mem_cons.mp h
    show gbk2utf8 d ((c.bytes ++ encode s) ++ rest) = (c.image d ++ images d s) ++ _
    rw [List.append_assoc, gbk2utf8_bytes d c hc, ih hs, List.append_assoc]

/-- The first 0x7F of a text is not left as it is, unless the mapping has codes that begin with it. -/
theorem gbk2utf8_del (d : ℕ → Option Bytes) (hd : ∀ trail < 256, d (trail + 0x7F <<< 8) = none)
    (rest : Bytes) : ∃ shown, gbk2utf8 d (0x7F::rest) = byte '?' :: shown := by
  cases rest with
  | nil => exact ⟨[],rfl⟩
  | cons trail rest =>
    refine ⟨gbk2utf8 d rest,?_⟩
    have hcode : d (trail.toNat + (0x7F : UInt8).toNat <<< 8) = none := hd _ trail.toNat_lt
    show (d (trail.toNat + (0x7F : UInt8).toNat <<< 8)).getD (text "?") ++ gbk2utf8 d rest = _
    rw [hcode]
    rfl

theorem not_del_of_converted (d : ℕ → Option Bytes) (hd : ∀ trail < 256, d (trail + 0x7F <<< 8) = none)
    (s : List Character) (h : gbk2utf8 d (encode s) = images d s) : ∀ c ∈ s, c.isDel = false := by
  induction s with
  | nil => exact List.forall_mem_nil _
  | cons c s ih =>
    rw [List.forall_mem_cons]
    by_cases hc : c.isDel = true
    · have hbytes : c.bytes = [0x7F] := of_decide_eq_true hc
      obtain ⟨shown,hshown⟩ := gbk2utf8_del d hd (encode s)
      change gbk2utf8 d (c.bytes ++ encode s) = c.image d ++ images d s at h
      rw [hbytes, List.singleton_append, hshown] at h
      cases c with
      | ascii b hb =>
        obtain rfl : b = 0x7F := List.singleton_inj.mp hbytes
        exact absurd (List.cons.inj h).1 (by decide)
      | double lead trail hlead => cases hbytes
    · rw [Bool.not_eq_true] at hc
      change gbk2utf8 d (c.bytes ++ encode s) = c.image d ++ images d s at h
      rw [gbk2utf8_bytes d c hc] at h
      exact ⟨hc,ih (List.append_cancel_left h)⟩

/-- Both texts are converted character by character, and so is the one followed by the other. -/
structure Characterwise (d : ℕ → Option Bytes) (s t : List Character) : Prop where
  first : gbk2utf8 d (encode s) = images d s
  second : gbk2utf8 d (encode t) = images d t
  append : gbk2utf8 d (encode s ++ encode t) = gbk2utf8 d (encode s) ++ gbk2utf8 d (encode t)

theorem characterwise_of_no_del (d : ℕ → Option Bytes) (s t : List Character)
    (hs : ∀ c ∈ s, c.isDel = false) (ht : ∀ c ∈ t, c.isDel = false) : Characterwise d s t := by
  have hwhole (u : List Character) (hu : ∀ c ∈ u, c.isDel = false) :
      gbk2utf8 d (encode u) = images d u := by
    simpa [gbk2utf8] using gbk2utf8_encode d u hu []
  refine ⟨hwhole s hs,hwhole t ht,?_⟩
  rw [gbk2utf8_encode d s hs, hwhole s hs]

theorem characterwise_iff_no_del (s t : List Character) :
    (∀ d, Loaded d → Characterwise d s t) ↔ ∀ c ∈ s ++ t, c.isDel = false := by
  constructor
  · intro h c hc
    have hempty := h _ empty_loaded
    have hcode : ∀ trail < 256, (fun _ => none : ℕ → Option Bytes) (trail + 0x7F <<< 8) = none :=
      fun _ _ => rfl
    rcases List.mem_append.mp hc with hc | hc
    · exact not_del_of_converted _ hcode s hempty.first c hc
    · exact not_del_of_converted _ hcode t hempty.second c hc
  · intro h d _
    exact characterwise_of_no_del d s t (fun c hc => h c (List.mem_append_left t hc))
      (fun c hc => h c (List.mem_append_right s hc))

def del : Character := .ascii 0x7F (UInt8.le_refl 0x7F)

theorem del_not_characterwise : Loaded (fun _ => none) ∧ ¬ Characterwise (fun _ => none) [del] [] := by
  refine ⟨empty_loaded,fun h => ?_⟩
  exact absurd h.first (by decide)

end Vecoda.GbkText

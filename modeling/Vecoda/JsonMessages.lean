import Vecoda.JsonRoundTrip

/-!
# Messages from end to end

`m.send` writes a frame around the text of a table, and `m.update` cuts the
stream it reads into frames and decodes each. Whatever pieces the stream comes
in, the reader gets one text for every table that was sent, in order.
-/

set_option autoImplicit false

namespace Vecoda.JsonMessages
open MessagePipe LuaText JsonGrammar JsonDecode JsonAcceptance JsonEncode JsonTrees JsonRoundTrip

variable {N : Type}

structure Package (N : Type) where
  size : ℕ
  heap : Heap N size
  root : Fin size

def Package.value (p : Package N) : LuaValue N p.size := .table p.root

section Sending

variable (f : Formats N)

def send (p : Package N) : Except EncodeError Bytes := (encode f p.heap p.value).map Framing.frame

def sendAll : List (Package N) → Except EncodeError Bytes
  | [] => .ok []
  | p::ps =>
    match send f p with
    | .error e => .error e
    | .ok frame => (sendAll ps).map (frame ++ ·)

def Carries (p : Package N) (body : Bytes) : Prop := encode f p.heap p.value = .ok body

theorem sendAll_frames (ps : List (Package N)) (stream : Bytes) (h : sendAll f ps = .ok stream) :
    ∃ bodies, List.Forall₂ (Carries f) ps bodies ∧ stream = Framing.frames bodies := by
  induction ps generalizing stream with
  | nil =>
    injection h with h
    exact ⟨[],.nil,h.symm⟩
  | cons p ps ih =>
    rw [sendAll] at h
    cases hp : send f p with
    | error e =>
      rw [hp] at h
      cases h
    | ok frame =>
      rw [hp] at h
      obtain ⟨rest,hrest,rfl⟩ := JsonScanning.map_ok h
      obtain ⟨body,hbody,rfl⟩ := JsonScanning.map_ok hp
      obtain ⟨bodies,hall,rfl⟩ := ih rest hrest
      exact ⟨body::bodies,.cons hbody hall,by simp [Framing.frames]⟩

end Sending

section Receiving

variable {f : Formats N} {nums : Numbers N}

theorem decode_carried (hlaw : Faithful f nums) {p : Package N} {body : Bytes} (h : Carries f p body) :
    ∃ w, Unfolds f p.heap p.value w ∧ (decode nums body = .ok w ↔ clear w = true) := by
  obtain ⟨w,hw,rfl⟩ := unfolds_of_encode f p.heap ∅ p.value body h
  refine ⟨w,hw,?_⟩
  rw [decode_written hlaw hw w, ← received_iff hw, table_not_exponential hw, eq_comm (a := w)]
  exact ⟨And.right,fun hr => ⟨rfl,hr⟩⟩

/-- Every package that is sent is received, and as its tree unless a string in it is misread. -/
theorem send_receive (strtod : Bytes → Option Framing.Number) (hlaw : Faithful f nums)
    (ps : List (Package N)) (stream : Bytes) (h : sendAll f ps = .ok stream) (chunks : List Bytes)
    (hchunks : chunks.flatten = stream) (fuel : ℕ) (hfuel : ps.length < fuel) :
    ∃ bodies, Framing.receive strtod chunks fuel = .ok (bodies,.done) ∧
      List.Forall₂ (fun p body => ∃ w, Unfolds f p.heap p.value w ∧
        (decode nums body = .ok w ↔ clear w = true)) ps bodies := by
  obtain ⟨bodies,hall,rfl⟩ := sendAll_frames f ps stream h
  have hstart : Framing.Ahead .initial (chunks.flatten ++ []) bodies :=
    .header bodies rfl (by rw [List.append_nil]; exact hchunks)
  obtain ⟨pkgs,left,s,hf,hb,ha⟩ := Framing.feed_ahead strtod chunks .initial [] bodies hstart
  refine ⟨bodies,?_,hall.imp (fun _ _ hc => decode_carried hlaw hc)⟩
  have hl : left.length < fuel := by
    have := hall.length_eq
    rw [hb, List.length_append] at this
    omega
  rw [Framing.receive, hf]
  simp only [Framing.drain_ahead strtod fuel s left ha hl]
  rw [hb]
  rfl

def seqText : Bytes := write naturalFormats (.object [(text "seq",.number 7)])

/-- Two packages, the stream cut behind its first byte. -/
theorem send_receive_seq :
    ∃ bodies, Framing.receive (fun _ => none) [(Framing.frames (List.replicate 2 seqText)).take 1,
        (Framing.frames (List.replicate 2 seqText)).drop 1] 3 = .ok (bodies,.done) ∧
      List.Forall₂ (fun (p : Package ℕ) body => ∃ w, Unfolds naturalFormats p.heap p.value w ∧
        (decode naturalNumbers body = .ok w ↔ clear w = true))
        (List.replicate 2 ⟨1,seqTable,0⟩) bodies := by
  have hsend : send naturalFormats ⟨1,seqTable,0⟩ = .ok (Framing.frame seqText) :=
    congrArg (Except.map Framing.frame)
      (encode_of_unfolds seqTable_unfolds ∅ (fun u hu => absurd hu (Finset.notMem_empty u)))
  refine send_receive (fun _ => none) naturals_faithful (List.replicate 2 ⟨1,seqTable,0⟩)
    (Framing.frames (List.replicate 2 seqText)) ?_ _ ?_ 3 (by simp)
  · simp [List.replicate, sendAll, hsend, Except.map, Framing.frames]
  · rw [List.flatten_cons, List.flatten_singleton, List.take_append_drop]

end Receiving

end Vecoda.JsonMessages

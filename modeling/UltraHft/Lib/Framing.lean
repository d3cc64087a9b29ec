import UltraHft.Lib.Bytes

/-!
# Length-prefixed frames

A frame is a message of at least one byte behind its length, a big-endian
integer of `w` bytes.  A reader of at most `n` frames stops at the first that is
cut short or empty; what it has read up to there encodes to a prefix of the
input.
-/

namespace UltraHft.Lib.Framing

variable {w n : Nat} {m rest l : List UInt8} {msgs : List (List UInt8)}

def encode (w : Nat) (m : List UInt8) : List UInt8 := Bytes.toBE w m.length ++ m

def takeFrame (w : Nat) (l : List UInt8) : Option (List UInt8 × List UInt8) :=
  let len := Bytes.ofBE (l.take w)
  let rest := l.drop w
  if l.length < w ∨ len = 0 ∨ rest.length < len then none
  else some (rest.take len, rest.drop len)

/-- The messages of the first `n` frames, or of those before the first that is
broken. -/
def frames (w : Nat) : Nat → List UInt8 → List (List UInt8)
  | 0, _ => []
  | n + 1, l =>
      match takeFrame w l with
      | none => []
      | some (m, rest) => m :: frames w n rest

def Fits (w : Nat) (m : List UInt8) : Prop := 0 < m.length ∧ m.length < 256 ^ w

@[simp] theorem length_encode : (encode w m).length = w + m.length := by
  simp [encode]

theorem length_flatten_encode : ((msgs.map (encode w)).flatten).length =
    (msgs.map fun m => w + m.length).sum := by
  rw [List.length_flatten, List.map_map]
  congr 1
  apply List.map_congr_left
  intro m _
  exact length_encode

theorem takeFrame_encode (h : Fits w m) (rest : List UInt8) :
    takeFrame w (encode w m ++ rest) = some (m, rest) := by
  have htake : (encode w m ++ rest).take w = Bytes.toBE w m.length := by
    rw [encode, List.append_assoc, List.take_left' Bytes.length_toBE]
  have hdrop : (encode w m ++ rest).drop w = m ++ rest := by
    rw [encode, List.append_assoc, List.drop_left' Bytes.length_toBE]
  have hpos := h.1
  simp only [takeFrame, htake, hdrop, Bytes.ofBE_toBE h.2]
  have hwhole : ¬ ((encode w m ++ rest).length < w ∨ m.length = 0 ∨
      (m ++ rest).length < m.length) := by
    rw [List.length_append, List.length_append, length_encode]
    omega
  rw [if_neg hwhole, List.take_left, List.drop_left]

theorem eq_encode_of_takeFrame (h : takeFrame w l = some (m, rest)) :
    l = encode w m ++ rest ∧ Fits w m := by
  simp only [takeFrame] at h
  split_ifs at h with hbroken
  have hw : w ≤ l.length := by omega
  have hlen : Bytes.ofBE (l.take w) ≤ (l.drop w).length := by omega
  have hwidth : (l.take w).length = w := List.length_take_of_le hw
  obtain ⟨rfl, rfl⟩ : (l.drop w).take (Bytes.ofBE (l.take w)) = m ∧
      (l.drop w).drop (Bytes.ofBE (l.take w)) = rest := by
    simpa using h
  have hm : ((l.drop w).take (Bytes.ofBE (l.take w))).length = Bytes.ofBE (l.take w) :=
    List.length_take_of_le hlen
  constructor
  · have hbytes : Bytes.toBE w (Bytes.ofBE (l.take w)) = l.take w := by
      have h := Bytes.toBE_ofBE (l.take w)
      rwa [hwidth] at h
    rw [encode, hm, hbytes, List.append_assoc, List.take_append_drop, List.take_append_drop]
  · have hlt := Bytes.ofBE_lt (l.take w)
    rw [hwidth] at hlt
    unfold Fits
    rw [hm]
    omega

/-- Reading undoes writing, whatever follows the frames. -/
theorem frames_encode (h : ∀ m ∈ msgs, Fits w m) (rest : List UInt8) :
    frames w msgs.length ((msgs.map (encode w)).flatten ++ rest) = msgs := by
  induction msgs with
  | nil => rfl
  | cons m msgs ih =>
      have hm := h m (by simp)
      have hmsgs := ih fun m hmem => h m (by simp [hmem])
      rw [List.map_cons, List.flatten_cons, List.append_assoc, List.length_cons, frames,
        takeFrame_encode hm]
      exact congrArg (m :: ·) hmsgs

/-- The messages read are the input up to some point. -/
theorem exists_eq_encode_frames (n : Nat) (l : List UInt8) :
    ∃ rest, l = ((frames w n l).map (encode w)).flatten ++ rest := by
  induction n generalizing l with
  | zero => exact ⟨l, rfl⟩
  | succ n ih =>
      unfold frames
      cases htake : takeFrame w l with
      | none => exact ⟨l, rfl⟩
      | some frame =>
          obtain ⟨hl, _⟩ := eq_encode_of_takeFrame htake
          obtain ⟨rest, hrest⟩ := ih frame.2
          refine ⟨rest, ?_⟩
          rw [List.map_cons, List.flatten_cons, List.append_assoc, ← hrest]
          exact hl

theorem fits_of_mem_frames (h : m ∈ frames w n l) : Fits w m := by
  induction n generalizing l with
  | zero => simp [frames] at h
  | succ n ih =>
      unfold frames at h
      cases htake : takeFrame w l with
      | none => simp [htake] at h
      | some frame =>
          rw [htake] at h
          rcases List.mem_cons.mp h with rfl | h
          · exact (eq_encode_of_takeFrame htake).2
          · exact ih h

end UltraHft.Lib.Framing

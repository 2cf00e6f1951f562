import HbcMac.Commands
import HbcMac.Lib.LittleEndian
import HbcMac.Lib.ShiftRegister

/-!
# Errors the CRC detects

The same eight bit register guards the headers off the air and the packets of the host. Its
polynomial has its top bit set and the register runs through all 255 of its non-zero values, so
no short burst and no close pair of flipped bits gets past it.
-/

namespace HbcMac

open ShiftRegister LittleEndian

/-! ## The CRC as a shift register -/

/-- The bits of a byte in the order the register takes them in. -/
def byteBits (d : Byte) : List Bool := (List.range 8).map d.getLsbD

/-- The bits of a byte string, least significant bit first. -/
def messageBits (m : List Byte) : List Bool := m.flatMap byteBits

/-- The check over a byte string. -/
def crcOver (m : List Byte) : Byte := m.foldl crc8Update crc8Init

/-- The bits of the first byte come first. -/
theorem messageBits_cons (d : Byte) (m : List Byte) :
    messageBits (d :: m) = byteBits d ++ messageBits m := List.flatMap_cons

/-- One iteration is one shift. -/
theorem crc8Bit_eq (crc : Byte) : crc8Bit crc = shift crc8Poly crc := by
  have hlow : crc &&& 0x01 ≠ 0 ↔ crc.getLsbD 0 = true := by
    revert crc
    decide
  simp only [crc8Bit, shift, hlow]

/-- The bits of a byte make it up. -/
theorem word_byteBits (d : Byte) : word (byteBits d) = d := by
  apply BitVec.eq_of_getLsbD_eq
  intro i hi
  rw [getLsbD_word _ hi, byteBits]
  simp [hi]

/-- A byte is eight shifts with its bits. -/
theorem crc8Update_eq (crc d : Byte) : crc8Update crc d = feed crc8Poly crc (byteBits d) := by
  have hbit : crc8Bit = shift crc8Poly := funext crc8Bit_eq
  rw [feed_word crc (byteBits d) (Nat.le_refl 8), word_byteBits, crc8Update, hbit]
  rfl

/-- Only what the register holds clears it. -/
theorem crc8Update_eq_zero_iff {crc d : Byte} : crc8Update crc d = 0 ↔ d = crc := by
  constructor
  · intro hzero
    by_contra hne
    have hsum : crc ^^^ d ≠ 0#8 := by
      intro hsum
      exact hne (BitVec.xor_eq_zero_iff.mp hsum).symm
    have hbit : crc8Bit = shift crc8Poly := funext crc8Bit_eq
    have hpoly : crc8Poly.getLsbD 7 = true := rfl
    rw [crc8Update, hbit] at hzero
    exact iterate_shift_ne_zero hpoly hsum 8 hzero
  · rintro rfl
    exact crc8Update_self d

/-- A message is fed bit by bit. -/
theorem foldl_crc8Update (m : List Byte) (crc : Byte) :
    m.foldl crc8Update crc = feed crc8Poly crc (messageBits m) := by
  induction m generalizing crc with
  | nil => rfl
  | cons d m ih =>
    rw [List.foldl_cons, ih, crc8Update_eq, messageBits_cons, feed_append]

/-- Errors are added bit by bit. -/
theorem byteBits_xor (d e : Byte) :
    byteBits (d ^^^ e) = List.zipWith Bool.xor (byteBits d) (byteBits e) := by
  rw [byteBits, byteBits, byteBits, List.zipWith_map, List.zipWith_self]
  apply List.map_congr_left
  intro i _
  exact BitVec.getLsbD_xor

/-- In a message as in a byte. -/
theorem messageBits_xor {m e : List Byte} (h : e.length = m.length) :
    messageBits (List.zipWith (· ^^^ ·) m e)
      = List.zipWith Bool.xor (messageBits m) (messageBits e) := by
  induction m generalizing e with
  | nil =>
    rw [List.eq_nil_of_length_eq_zero h]
    rfl
  | cons d m ih =>
    cases e with
    | nil => cases h
    | cons b e =>
      have hlen : (byteBits d).length = (byteBits b).length := rfl
      rw [List.zipWith_cons_cons, messageBits_cons, messageBits_cons, messageBits_cons,
        byteBits_xor, ih (Nat.succ.inj h), List.zipWith_append hlen]

/-- Eight bits for each byte. -/
theorem length_messageBits (m : List Byte) : (messageBits m).length = 8 * m.length := by
  induction m with
  | nil => rfl
  | cons d m ih =>
    have hd : (byteBits d).length = 8 := rfl
    rw [messageBits_cons, List.length_append, ih, hd, List.length_cons]
    omega

/-- What an error adds to the register is the same for every message. -/
theorem crcOver_xor {m e : List Byte} (h : e.length = m.length) :
    crcOver (List.zipWith (· ^^^ ·) m e) = crcOver m ^^^ feed crc8Poly 0#8 (messageBits e) := by
  have hlen : (messageBits e).length = (messageBits m).length := by
    rw [length_messageBits, length_messageBits, h]
  rw [crcOver, crcOver, foldl_crc8Update, foldl_crc8Update, messageBits_xor h, ← feed_xor hlen,
    BitVec.xor_zero]

/-! ## Detection -/

/-- The error patterns within eight consecutive bit positions, and those of two bits closer than
the period of the register. -/
inductive Detectable (e : List Byte) : Prop where
  | burst (p : ℕ) (hset : ∃ k : ℕ, (messageBits e)[k]? = some true)
      (hwindow : ∀ k : ℕ, (messageBits e)[k]? = some true → p ≤ k ∧ k < p + 8)
  | pair (i j : ℕ) (hij : i < j) (hdist : j - i < 255)
      (hset : ∀ k : ℕ, (messageBits e)[k]? = some true ↔ k = i ∨ k = j)

/-- The register returns to one after 255 shifts and not before. -/
theorem shift_period {d : ℕ} (hpos : 0 < d) (hd : d < 255) : (shift crc8Poly)^[d] 1#8 ≠ 1#8 := by
  have h : ∀ d < 255, 0 < d → (shift crc8Poly)^[d] 1#8 ≠ 1#8 := by decide +kernel
  exact h d hd hpos

/-- A detectable error leaves something in the register. -/
theorem Detectable.feed_ne_zero {e : List Byte} (h : Detectable e) :
    feed crc8Poly 0#8 (messageBits e) ≠ 0#8 := by
  have hpoly : crc8Poly.getLsbD 7 = true := rfl
  cases h with
  | burst p hset hwindow =>
    apply feed_window_ne_zero hpoly _ hwindow
    obtain ⟨k, hk⟩ := hset
    exact List.mem_iff_getElem?.mpr ⟨k, hk⟩
  | pair i j hij hdist hset =>
    apply feed_two_ne_zero hpoly hij hset
    exact shift_period (by omega) hdist

/-- The check of a header is the check of its bytes. -/
theorem headerCrc_eq (header : Word) : headerCrc header = crcOver (bytes header) := rfl

/-- So is that of a command packet. -/
theorem pktCrc_eq (pkt : Vector Byte packetSize) : pktCrc pkt = crcOver pkt.toList := rfl

/-- **Error detection.** A corrupted string fails the check, be it a header off the air or a
packet of the host. -/
theorem crc_detects {m e : List Byte} (hlen : e.length = m.length) (hm : crcOver m = 0)
    (he : Detectable e) :
    crcOver (List.zipWith (· ^^^ ·) m e) ≠ 0
      ∧ (∀ s : State, bytes s.rx.rdPacketHeader = List.zipWith (· ^^^ ·) m e →
          rxCheckCrcOk s = false)
      ∧ (∀ pkt : Vector Byte packetSize, pkt.toList = List.zipWith (· ^^^ ·) m e →
          pktCrc pkt ≠ 0) := by
  have hcrc : crcOver (List.zipWith (· ^^^ ·) m e) ≠ 0 := by
    rw [crcOver_xor hlen, hm]
    intro hzero
    apply he.feed_ne_zero
    simpa using hzero
  refine ⟨hcrc, ?_, ?_⟩
  · intro s hs
    rw [rxCheckCrcOk, headerCrc_eq, hs]
    exact decide_eq_false hcrc
  · intro pkt hpkt
    rw [pktCrc_eq, hpkt]
    exact hcrc

/-- A header whose first and last bit are flipped. -/
theorem crc_detects_header :
    crcOver (List.zipWith (· ^^^ ·) [0x12, 0x34, 0x56, 0xB4] [0x01, 0x00, 0x00, 0x80]) ≠ 0
      ∧ (∀ s : State, bytes s.rx.rdPacketHeader
            = List.zipWith (· ^^^ ·) [0x12, 0x34, 0x56, 0xB4] [0x01, 0x00, 0x00, 0x80] →
          rxCheckCrcOk s = false)
      ∧ (∀ pkt : Vector Byte packetSize, pkt.toList
            = List.zipWith (· ^^^ ·) [0x12, 0x34, 0x56, 0xB4] [0x01, 0x00, 0x00, 0x80] →
          pktCrc pkt ≠ 0) := by
  apply crc_detects (m := [0x12, 0x34, 0x56, 0xB4]) (e := [0x01, 0x00, 0x00, 0x80]) rfl
    (by decide +kernel)
  apply Detectable.pair 0 31 (by decide) (by decide)
  intro k
  have hbound : ∀ k < 32,
      (messageBits [0x01, 0x00, 0x00, 0x80])[k]? = some true ↔ k = 0 ∨ k = 31 := by
    decide
  by_cases hk : k < 32
  · exact hbound k hk
  · have hnone : (messageBits [0x01, 0x00, 0x00, 0x80])[k]? = none :=
      List.getElem?_eq_none (Nat.le_of_not_lt hk)
    rw [hnone]
    constructor
    · intro h
      cases h
    · intro h
      omega

end HbcMac

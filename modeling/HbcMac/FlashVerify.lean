import HbcMac.FlashContents
import HbcMac.Lib.LittleEndian

/-!
# `flash_verify` against `flash_write`

The comparison loop looks at `size / 4` words, so it says nothing of the last `size % 4` bytes.
The writer starts at the page of the address, so what it leaves at the address itself is memory
from the low byte of the address on.
-/

namespace HbcMac

open LittleEndian

section
variable [Board]

/-! ## Reading from the chip -/

/-- An idle chip in the middle of a read, `n` bytes behind the address `start`. -/
structure Reading (start n : ℕ) (c : FlashChip) : Prop where
  idle : c.busy = 0
  command : ∃ hi mid lo rest, c.shifted = flashOpReadData :: hi :: mid :: lo :: rest
    ∧ FlashChip.address [hi, mid, lo] = start ∧ rest.length = n

/-- Byte `n` of a read that started at `start`. -/
def flashByte (cells : ℕ → Byte) (start n : ℕ) : Byte := cells ((start + n) % flashSize.toNat)

/-- The word at byte `n` of a read that started at `start`. -/
def flashWord (cells : ℕ → Byte) (start n : ℕ) : Word :=
  ofBytes (flashByte cells start n) (flashByte cells start (n + 1)) (flashByte cells start (n + 2))
    (flashByte cells start (n + 3))

omit [Board] in
/-- A word from the chip is four bytes of the array. -/
theorem byteAt_flashWord (cells : ℕ → Byte) (start n : ℕ) {i : ℕ} (hi : i < 4) :
    byteAt (flashWord cells start n) i = flashByte cells start (n + i) :=
  byteAt_ofBytes (fun j => flashByte cells start (n + j)) hi

omit [Board] in
/-- The next byte is answered and the read goes on. -/
theorem Reading.transfer {start n : ℕ} {c : FlashChip} (h : Reading start n c) (b : Byte) :
    (c.transfer b).1 = flashByte c.cells start n
      ∧ (c.transfer b).2 = { c with shifted := c.shifted ++ [b] }
      ∧ Reading start (n + 1) { c with shifted := c.shifted ++ [b] } := by
  obtain ⟨hi, mid, lo, rest, hshifted, haddr, hlen⟩ := h.command
  refine ⟨?_, ?_, h.idle, hi, mid, lo, rest ++ [b], ?_, haddr, ?_⟩
  · have hargs : 3 ≤ (hi :: mid :: lo :: rest).length := Nat.le_add_left ..
    have hindex : (hi :: mid :: lo :: rest).length - 3 = n := hlen
    show c.answer = _
    rw [FlashChip.answer, hshifted]
    dsimp only
    rw [if_neg (by decide), if_pos ⟨rfl, h.idle, hargs⟩, hindex]
    show c.cells ((FlashChip.address [hi, mid, lo] + n) % flashSize.toNat) = _
    rw [haddr]
    rfl
  · have hread : flashOpReadData ≠ flashOpReadStatus := by decide
    have hhead : c.shifted.head? ≠ some flashOpReadStatus := by
      rw [hshifted]
      exact fun hop => hread (Option.some.inj hop)
    simp only [FlashChip.transfer, if_neg hhead]
  · rw [hshifted]
    rfl
  · rw [List.length_append, hlen]
    rfl

omit [Board] in
/-- Four transfers are one little-endian word. -/
theorem Reading.transferWord {start n : ℕ} {s : State} (h : Reading start n s.flash) :
    (flashTransferWord s).1 = flashWord s.flash.cells start n
      ∧ (flashTransferWord s).2
        = { s with flash.shifted := s.flash.shifted ++ [0x00, 0x00, 0x00, 0x00] }
      ∧ Reading start (n + 4) (flashTransferWord s).2.flash := by
  obtain ⟨h0, hs0, hr0⟩ := h.transfer 0x00
  obtain ⟨h1, hs1, hr1⟩ := hr0.transfer 0x00
  obtain ⟨h2, hs2, hr2⟩ := hr1.transfer 0x00
  obtain ⟨h3, hs3, hr3⟩ := hr2.transfer 0x00
  have hchip : (flashTransferWord s).2
      = { s with flash.shifted := s.flash.shifted ++ [0x00] ++ [0x00] ++ [0x00] ++ [0x00] } := by
    simp only [flashTransferWord, flashTransfer, hs0, hs1, hs2, hs3]
  refine ⟨?_, ?_, ?_⟩
  · simp only [flashTransferWord, flashTransfer, hs0, hs1, hs2, h0, h1, h2, h3, flashWord,
      ofBytes, place, Nat.mul_zero, BitVec.shiftLeft_zero]
  · rw [hchip]
    simp only [List.append_assoc, List.cons_append, List.nil_append]
  · rw [hchip]
    exact hr3

/-! ## The comparison loop -/

/-- The first word behind the pointer, and the words behind it. -/
theorem memStream_cons (m : Mem) (i : ℕ) : (i < 4 → m.stream m.rdP i = byteAt (m.get m.rdP) i)
    ∧ m.stream m.rdP (4 + i) = m.stream (advance m.readWraps m.rdP) i := by
  constructor
  · intro hi
    rw [Mem.stream, Nat.div_eq_of_lt hi, Nat.mod_eq_of_lt hi]
    rfl
  · have hdiv : (4 + i) / 4 = i / 4 + 1 := by omega
    have hmod : (4 + i) % 4 = i % 4 := by omega
    rw [Mem.stream, Mem.stream, hdiv, hmod, Function.iterate_succ_apply]

/-- A word is the one in memory when its four bytes are. -/
theorem Reading.word_eq_iff {start k : ℕ} {s : State} (h : Reading start k s.flash) :
    (flashTransferWord s).1 = s.mem.get s.mem.rdP ↔
      ∀ i < 4, flashByte s.flash.cells start (k + i) = s.mem.stream s.mem.rdP i := by
  obtain ⟨hword, -, -⟩ := h.transferWord
  have hbyte (i : ℕ) (hi : i < 4) :
      byteAt (flashTransferWord s).1 i = flashByte s.flash.cells start (k + i) := by
    rw [hword, byteAt_flashWord _ _ _ hi]
  rw [eq_iff_byteAt]
  constructor
  · intro hall i hi
    rw [(memStream_cons s.mem i).1 hi, ← hall i hi, hbyte i hi]
  · intro hall i hi
    rw [hbyte i hi, hall i hi, (memStream_cons s.mem i).1 hi]

/-- The loop returns zero when all words it looks at agree. -/
theorem flashVerifyWords_zero_iff {start k : ℕ} {s : State} (h : Reading start k s.flash) (n : ℕ)
    (retval : Word) : (flashVerifyWords n retval s).1 = 0 ↔
      retval = 0 ∧ ∀ i < 4 * n, flashByte s.flash.cells start (k + i) = s.mem.stream s.mem.rdP i := by
  induction n generalizing k retval s with
  | zero =>
    exact ⟨fun hzero => ⟨hzero, fun i hi => absurd hi (Nat.not_lt_zero i)⟩, fun hzero => hzero.1⟩
  | succ n ih =>
    obtain ⟨-, hstate, hnext⟩ := h.transferWord
    have hfirst := h.word_eq_iff
    have hrest := ih (s := (memRead (flashTransferWord s).2).2) hnext
      (if (flashTransferWord s).1 ≠ (memRead (flashTransferWord s).2).1 then -1 else retval)
    rw [flashVerifyWords, hrest]
    have hmem : (flashTransferWord s).2.mem = s.mem := by rw [hstate]
    have hcells : (memRead (flashTransferWord s).2).2.flash.cells = s.flash.cells := by
      rw [hstate]
      rfl
    have hread : (memRead (flashTransferWord s).2).1 = s.mem.get s.mem.rdP := by
      rw [← hmem]
      rfl
    have hstream (i : ℕ) : (memRead (flashTransferWord s).2).2.mem.stream
        (memRead (flashTransferWord s).2).2.mem.rdP i = s.mem.stream s.mem.rdP (4 + i) := by
      rw [(memStream_cons s.mem i).2, ← hmem]
      rfl
    simp only [hcells, hread, hstream]
    constructor
    · rintro ⟨hret, hall⟩
      by_cases heq : (flashTransferWord s).1 = s.mem.get s.mem.rdP
      · rw [if_neg (not_not_intro heq)] at hret
        refine ⟨hret, fun i hi => ?_⟩
        by_cases hi4 : i < 4
        · exact hfirst.mp heq i hi4
        · have hsplit : i = 4 + (i - 4) := by omega
          have hi' := hall (i - 4) (by omega)
          rwa [Nat.add_assoc, ← hsplit] at hi'
      · rw [if_pos heq] at hret
        exact absurd hret (by decide)
    · rintro ⟨hret, hall⟩
      have heq : (flashTransferWord s).1 = s.mem.get s.mem.rdP :=
        hfirst.mpr fun i hi => hall i (by omega)
      rw [if_neg (not_not_intro heq)]
      refine ⟨hret, fun i hi => ?_⟩
      rw [Nat.add_assoc]
      exact hall (4 + i) (by omega)

omit [Board] in
/-- The address bytes of a read. -/
theorem address_bytes (flashAddr : Word) : FlashChip.address [(flashAddr >>> 16).setWidth 8,
    (flashAddr >>> 8).setWidth 8, flashAddr.setWidth 8] = flashAddr.toNat % flashSize.toNat := by
  have h : flashSize.toNat = 524288 := rfl
  simp only [FlashChip.address, BitVec.toNat_setWidth, BitVec.toNat_ushiftRight, h,
    Nat.shiftRight_eq_div_pow]
  omega

omit [Board] in
/-- Behind the opcode and the address the chip is reading. -/
theorem reading_flashSendAddr {s : State} (h : s.flash.busy = 0) (flashAddr : Word) :
    Reading (flashAddr.toNat % flashSize.toNat) 0
        (flashSendAddr flashOpReadData flashAddr s).flash
      ∧ (flashSendAddr flashOpReadData flashAddr s).flash.cells = s.flash.cells
      ∧ (flashSendAddr flashOpReadData flashAddr s).mem = s.mem := by
  have hopen : flashSendAddr flashOpReadData flashAddr s
      = { s with flash := s.flash.select.sends [flashOpReadData, (flashAddr >>> 16).setWidth 8,
          (flashAddr >>> 8).setWidth 8, flashAddr.setWidth 8] } := by
    rw [flashSendAddr, flashStart, flashSend_with, flashSend_with, flashSend_with, flashSend_with]
    rfl
  have hhead : (s.flash.select.shifted ++ [flashOpReadData, (flashAddr >>> 16).setWidth 8,
      (flashAddr >>> 8).setWidth 8, flashAddr.setWidth 8]).head? ≠ some flashOpReadStatus := by
    show some flashOpReadData ≠ some flashOpReadStatus
    decide
  rw [hopen, FlashChip.sends_eq hhead]
  exact ⟨⟨h, _, _, _, [], rfl, address_bytes flashAddr, rfl⟩, rfl, rfl⟩

/-- **What a zero of `flash_verify` says**: the whole words of the range agree with what the
read pointer yields. -/
theorem flashVerify_zero_iff {s : State} (h : s.flash.busy = 0) (memAddr size : Word)
    {flashAddr : Word} (hfit : flashAddr.toNat + size.toNat ≤ flashSize.toNat) :
    (flashVerify memAddr size flashAddr s).1 = 0 ↔ ∀ i < 4 * (size.toNat / 4),
      s.flash.cells (flashAddr.toNat + i) = s.mem.stream memAddr i := by
  have hend : flashSize.toNat = 524288 := rfl
  obtain ⟨hreading, hcells, hmem⟩ := reading_flashSendAddr (s := memSetRdP memAddr s) h flashAddr
  have hwords := flashVerifyWords_zero_iff hreading (size.toNat / 4) 0
  rw [hcells, hmem] at hwords
  have hbyte (i : ℕ) (hi : i < 4 * (size.toNat / 4)) :
      flashByte s.flash.cells (flashAddr.toNat % flashSize.toNat) (0 + i)
        = s.flash.cells (flashAddr.toNat + i) := by
    have hindex : (flashAddr.toNat % flashSize.toNat + (0 + i)) % flashSize.toNat
        = flashAddr.toNat + i := by
      rw [hend] at hfit ⊢
      omega
    rw [flashByte, hindex]
  show (flashVerifyWords (size.toNat / 4) 0 _).1 = 0 ↔ _
  rw [hwords]
  constructor
  · intro hall i hi
    rw [← hbyte i hi]
    exact hall.2 i hi
  · intro hall
    refine ⟨rfl, fun i hi => ?_⟩
    show flashByte s.flash.cells _ _ = _
    rw [hbyte i hi]
    exact hall i hi

/-! ## Exactness -/

/-- `flash_verify` returns zero exactly when the range is right. -/
def VerifyExact (memAddr size flashAddr : Word) (s : State) : Prop :=
  (flashVerify memAddr size flashAddr s).1 = 0 ↔
    ∀ i < size.toNat, s.flash.cells (flashAddr.toNat + i) = s.mem.byte memAddr i

omit [Board] in
/-- The read pointer does not wrap between `mem_addr` and `mem_addr + size`. -/
def Unwrapped (wrap : Bool) (memAddr size : Word) : Prop :=
  wrap = true → memAddr.toNat % halfSize + size.toNat ≤ halfSize

/-- Where the read pointer does not wrap, it goes straight on. -/
theorem Unwrapped.stream_eq {m : Mem} {memAddr size : Word}
    (h : Unwrapped m.readWraps memAddr size) (haligned : 4 ∣ memAddr.toNat) {i : ℕ}
    (hi : i < size.toNat) : m.stream memAddr i = m.byte memAddr i :=
  Mem.stream_eq_byte haligned fun hwrap => by
    have hle := h hwrap
    omega

/-- Only a range whose whole words agree can be told wrong. -/
theorem verifyExact_iff {s : State} (h : s.flash.busy = 0) {memAddr size flashAddr : Word}
    (haligned : 4 ∣ memAddr.toNat) (hfit : flashAddr.toNat + size.toNat ≤ flashSize.toNat)
    (hwrap : Unwrapped s.mem.readWraps memAddr size) : VerifyExact memAddr size flashAddr s ↔
      (∃ i < 4 * (size.toNat / 4), s.flash.cells (flashAddr.toNat + i) ≠ s.mem.byte memAddr i)
        ∨ ∀ i < size.toNat, 4 * (size.toNat / 4) ≤ i →
          s.flash.cells (flashAddr.toNat + i) = s.mem.byte memAddr i := by
  have hzero : (flashVerify memAddr size flashAddr s).1 = 0 ↔ ∀ i < 4 * (size.toNat / 4),
      s.flash.cells (flashAddr.toNat + i) = s.mem.byte memAddr i := by
    rw [flashVerify_zero_iff h memAddr size hfit]
    constructor
    · intro hall i hi
      rw [hall i hi, hwrap.stream_eq haligned (by omega)]
    · intro hall i hi
      rw [hall i hi, hwrap.stream_eq haligned (by omega)]
  rw [VerifyExact, hzero]
  constructor
  · intro hexact
    by_cases hwords : ∀ i < 4 * (size.toNat / 4),
        s.flash.cells (flashAddr.toNat + i) = s.mem.byte memAddr i
    · exact .inr fun i hi _ => hexact.mp hwords i hi
    · left
      push Not at hwords
      exact hwords
  · rintro hcase
    constructor
    · intro hwords i hi
      rcases hcase with ⟨k, hk, hne⟩ | htail
      · exact absurd (hwords k hk) hne
      · by_cases hword : i < 4 * (size.toNat / 4)
        · exact hwords i hword
        · exact htail i hi (by omega)
    · intro hall i hi
      exact hall i (by omega)

end

/-! ## The contents that tell the two apart -/

/-- A start-up state with other contents. -/
def filled (wrap : Bool) (cells : Word → Word) (flash : ℕ → Byte) : State :=
  { bootState with
    mem.cells := cells
    mem.flags := if wrap then memReadWrap16M else 0
    flash.cells := flash }

theorem filled_readWraps (wrap : Bool) (cells : Word → Word) (flash : ℕ → Byte) :
    (filled wrap cells flash).mem.readWraps = wrap := by
  cases wrap <;> simp [filled, Mem.readWraps, memReadWrap16M]

/-- One word of the memory is `1`, the others are zero. -/
def marked (b : Word) : Word → Word := fun c => if c = b then 1 else 0

/-- A clear memory reads as zeros. -/
theorem stream_zero [Board] (wrap : Bool) (flash : ℕ → Byte) (a : Word) (i : ℕ) :
    (filled wrap (fun _ => 0) flash).mem.stream a i = 0 := byteAt_zero (i % 4)

/-- A stream that does not come to the marked word does not see it. -/
theorem stream_marked {wrap : Bool} {a b : Word} {i : ℕ} (h : (advance wrap)^[i / 4] a ≠ b)
    (flash : ℕ → Byte) :
    letI := plainDram
    (filled wrap (marked b) flash).mem.stream a i = 0 := by
  have hget : marked b ((advance wrap)^[i / 4] a) = 0 := if_neg h
  show byteAt (marked b ((advance (filled wrap (marked b) flash).mem.readWraps)^[i / 4] a)) _ = 0
  rw [filled_readWraps, hget, byteAt_zero]

/-- The marked byte is in memory. -/
theorem byte_marked {i : ℕ} (hi : 4 ∣ i) (wrap : Bool) (a : Word) (flash : ℕ → Byte) :
    letI := plainDram
    (filled wrap (marked (a + BitVec.ofNat 32 i)) flash).mem.byte a i = 1 := by
  have hword : 4 * (i / 4) = i := Nat.mul_div_cancel' hi
  have hbyte : i % 4 = 0 := Nat.mod_eq_zero_of_dvd hi
  have hget : marked (a + BitVec.ofNat 32 i) (a + BitVec.ofNat 32 i) = 1 := if_pos rfl
  show byteAt (marked (a + BitVec.ofNat 32 i) (a + BitVec.ofNat 32 (4 * (i / 4)))) (i % 4) = 1
  rw [hword, hbyte, hget]
  rfl

/-- A pointer that wraps never gets to the words behind its half. -/
theorem exists_unread {memAddr size : Word} (haligned : 4 ∣ memAddr.toNat)
    (h : ¬ Unwrapped true memAddr size) : ∃ i < size.toNat, 4 ∣ i
      ∧ ∀ k, (advance true)^[k] memAddr ≠ memAddr + BitVec.ofNat 32 i := by
  have hlt := memAddr.isLt
  rw [Unwrapped] at h
  push Not at h
  obtain ⟨-, h⟩ := h
  rw [halfSize_eq] at h
  refine ⟨16777216 - memAddr.toNat % 16777216, by omega, by omega, fun k heq => ?_⟩
  have hnat := congrArg BitVec.toNat heq
  rw [advance_iterate_wrap, BitVec.toNat_add, BitVec.toNat_ofNat, halfSize_eq] at hnat
  omega

/-- A partial word that differs is not seen. -/
theorem not_verifyExact_tail [Board] {memAddr size flashAddr : Word} (wrap : Bool)
    (hfit : flashAddr.toNat + size.toNat ≤ flashSize.toNat) (h : ¬ 4 ∣ size.toNat) :
    ¬ VerifyExact memAddr size flashAddr (filled wrap (fun _ => 0)
      fun j => if j = flashAddr.toNat + 4 * (size.toNat / 4) then 1 else 0) := by
  intro hexact
  have hzero := (flashVerify_zero_iff (s := filled wrap (fun _ => 0)
    fun j => if j = flashAddr.toNat + 4 * (size.toNat / 4) then 1 else 0) rfl memAddr size hfit).mpr
    fun i hi => by
      rw [stream_zero]
      exact if_neg (by omega)
  have htail := hexact.mp hzero (4 * (size.toNat / 4)) (by omega)
  have hcell : (if flashAddr.toNat + 4 * (size.toNat / 4) = flashAddr.toNat + 4 * (size.toNat / 4)
      then 1 else 0 : Byte) = 1 := if_pos rfl
  have hbyte : (filled wrap (fun _ => 0) fun j =>
      if j = flashAddr.toNat + 4 * (size.toNat / 4) then 1 else 0).mem.byte memAddr
        (4 * (size.toNat / 4)) = 0 := byteAt_zero _
  rw [hbyte] at htail
  exact absurd (hcell.symm.trans htail) (by decide)

/-- A word the pointer does not get to is not compared. -/
theorem not_verifyExact_wrap {memAddr size flashAddr : Word} (haligned : 4 ∣ memAddr.toNat)
    (hfit : flashAddr.toNat + size.toNat ≤ flashSize.toNat) (h : ¬ Unwrapped true memAddr size) :
    ∃ cells, letI := plainDram
      ¬ VerifyExact memAddr size flashAddr (filled true cells fun _ => 0) := by
  obtain ⟨i, hi, hword, hunread⟩ := exists_unread haligned h
  refine ⟨marked (memAddr + BitVec.ofNat 32 i), fun hexact => ?_⟩
  have hzero := (@flashVerify_zero_iff plainDram.toBoard
    (filled true (marked (memAddr + BitVec.ofNat 32 i)) fun _ => 0) rfl memAddr size flashAddr
    hfit).mpr fun j _ => (stream_marked (hunread (j / 4)) _).symm
  have hbyte := hexact.mp hzero i hi
  rw [byte_marked hword] at hbyte
  have hne : (0 : Byte) ≠ 1 := by decide
  exact hne hbyte

/-- **`flash_verify` is exact for all contents** only when there is no partial word behind the
ones it compares and the pointer does not wrap among them. -/
theorem verifyExact_forall_iff {memAddr size flashAddr : Word} (haligned : 4 ∣ memAddr.toNat)
    (hfit : flashAddr.toNat + size.toNat ≤ flashSize.toNat) (wrap : Bool) :
    (∀ [Board] (s : State), s.flash.busy = 0 → s.mem.readWraps = wrap →
        VerifyExact memAddr size flashAddr s) ↔
      4 ∣ size.toNat ∧ Unwrapped wrap memAddr size := by
  constructor
  · intro hexact
    constructor
    · by_contra hpartial
      exact @not_verifyExact_tail plainDram.toBoard memAddr size flashAddr wrap hfit hpartial
        (@hexact plainDram.toBoard _ rfl (filled_readWraps ..))
    · by_contra hwrap
      cases wrap with
      | false => exact hwrap fun hfalse => by cases hfalse
      | true =>
        obtain ⟨cells, hnot⟩ := not_verifyExact_wrap haligned hfit hwrap
        exact hnot (@hexact plainDram.toBoard _ rfl (filled_readWraps ..))
  · rintro ⟨hwords, hwrap⟩ _ s hidle rfl
    -- no byte is left behind the whole words
    exact (verifyExact_iff hidle haligned hfit hwrap).mpr (.inr fun i hi htail => by omega)

/-- The reply of `CMD_FLASH_WRITE` is the result of `flash_verify`, which changes neither the
memory nor the array. -/
theorem flashWrite_reply [Board] [HostProtocol] {s : State} (h : s.flash.busy = 0) {size : Word}
    (hfit : s.main.flashAddr.toNat + size.toNat ≤ flashSize.toNat) (hwords : 4 ∣ size.toNat)
    (hreply : (ctrlSwitch .flashWrite size s).spi.replyData = 0) : ∀ i < size.toNat,
      (ctrlSwitch .flashWrite size s).flash.cells (s.main.flashAddr.toNat + i)
        = s.mem.byte 0 i := by
  have hidle := (flashWrite_ops h 0 size s.main.flashAddr).1
  have hend : flashSize.toNat = 524288 := rfl
  obtain ⟨p, f, hwrite⟩ := flashWrite_keeps h hfit 0
  rw [hwrite] at hidle
  have hwrap : Unwrapped s.mem.readWraps 0 size := by
    intro _
    show 0 % halfSize + size.toNat ≤ halfSize
    rw [halfSize_eq]
    omega
  have hexact := (verifyExact_iff (s := { s with mem.rdP := p, flash := f }) hidle (Dvd.intro 0 rfl)
    hfit hwrap).mpr (.inr fun i hi htail => by omega)
  have hcells := congrArg FlashChip.cells
    (flashVerify_flash 0 size s.main.flashAddr { s with mem.rdP := p, flash := f })
  have hdata : (ctrlSwitch .flashWrite size s).spi.replyData
      = (flashVerify 0 size s.main.flashAddr { s with mem.rdP := p, flash := f }).1 := by
    show (flashVerify 0 size (flashWrite 0 size s.main.flashAddr s).main.flashAddr
      (flashWrite 0 size s.main.flashAddr s)).1 = _
    rw [hwrite]
  have harray : (ctrlSwitch .flashWrite size s).flash.cells = f.cells := by
    show (flashVerify 0 size (flashWrite 0 size s.main.flashAddr s).main.flashAddr
      (flashWrite 0 size s.main.flashAddr s)).2.flash.cells = _
    rw [hwrite]
    exact hcells
  intro i hi
  rw [harray]
  exact hexact.mp (hdata.symm.trans hreply) i hi

/-- In every state of a run that started with an idle chip: `flash_verify` is exact, whatever the
memory and the array hold, if and only if the size is a multiple of four and the pointer does not
wrap; for a given content it also is where a whole word or no byte behind them differs. A zero
reported for such a size says that the range is right. -/
theorem flash_verify_exact_iff {memAddr size flashAddr : Word} (haligned : 4 ∣ memAddr.toNat)
    (hfit : flashAddr.toNat + size.toNat ≤ flashSize.toNat) (wrap : Bool) :
    ((∀ [Board] [HostProtocol] (y : Sys) (evs : List Event), y.fw.dev.flash.busy = 0 →
        (Run.run Sys.step y evs).fw.dev.mem.readWraps = wrap →
        VerifyExact memAddr size flashAddr (Run.run Sys.step y evs).fw.dev) ↔
      4 ∣ size.toNat ∧ Unwrapped wrap memAddr size)
    ∧ (∀ [Board] [HostProtocol] (y : Sys) (evs : List Event), y.fw.dev.flash.busy = 0 →
        let s := (Run.run Sys.step y evs).fw.dev
        s.mem.readWraps = wrap → Unwrapped wrap memAddr size →
        (VerifyExact memAddr size flashAddr s ↔
          (∃ i < 4 * (size.toNat / 4),
            s.flash.cells (flashAddr.toNat + i) ≠ s.mem.byte memAddr i)
          ∨ ∀ i < size.toNat, 4 * (size.toNat / 4) ≤ i →
            s.flash.cells (flashAddr.toNat + i) = s.mem.byte memAddr i))
    ∧ (∀ [Board] [HostProtocol] (y : Sys) (evs : List Event), y.fw.dev.flash.busy = 0 →
        let s := (Run.run Sys.step y evs).fw.dev
        s.main.flashAddr = flashAddr → 4 ∣ size.toNat →
        (ctrlSwitch .flashWrite size s).spi.replyData = 0 → ∀ i < size.toNat,
          (ctrlSwitch .flashWrite size s).flash.cells (flashAddr.toNat + i) = s.mem.byte 0 i) := by
  refine ⟨?_, ?_, ?_⟩
  · rw [← verifyExact_forall_iff haligned hfit wrap]
    constructor
    · -- every idle state is one of the states a run starts with
      intro hruns hboard s hidle hmode
      have : HostProtocol := plainProtocol
      exact hruns (Sys.boot s) [] hidle hmode
    · intro hstates _ _ y evs hidle hmode
      exact hstates _ (idle_run hidle evs) hmode
  · intro _ _ y evs hidle s hmode hwrap
    rw [← hmode] at hwrap
    exact verifyExact_iff (idle_run hidle evs) haligned hfit hwrap
  · intro _ _ y evs hidle s haddr hwords hreply
    rw [← haddr] at hfit ⊢
    exact flashWrite_reply (idle_run hidle evs) hfit hwords hreply

/-- A whole image, from a pointer that wraps. -/
theorem flash_verify_exact_image :
    ((∀ [Board] [HostProtocol] (y : Sys) (evs : List Event), y.fw.dev.flash.busy = 0 →
        (Run.run Sys.step y evs).fw.dev.mem.readWraps = true →
        VerifyExact 0 flashPsocSize flashAddrPsocConf (Run.run Sys.step y evs).fw.dev) ↔
      4 ∣ flashPsocSize.toNat ∧ Unwrapped true 0 flashPsocSize) :=
  (@flash_verify_exact_iff 0 flashPsocSize flashAddrPsocConf (by decide) (by decide) true).1

/-- Memory that starts with the bytes `00 01`, to be written to the flash byte at address 1. -/
def oddByte : State :=
  { bootState with
    mem.cells := fun c => if c = 0 then 0x0100 else 0
    main.flashAddr := 1 }

/-- Nothing is compared for a size of one: an erased byte passes for zero, and so does the byte
that `CMD_FLASH_WRITE` programs from the wrong place. -/
theorem flash_verify_blind :
    letI := plainDram
    letI := plainProtocol
    ((flashVerify 0 1 0 bootState).1 = 0
        ∧ bootState.flash.cells 0 ≠ bootState.mem.byte 0 0)
      ∧ (ctrlSwitch .flashWrite 1 oddByte).spi.replyData = 0
      ∧ (ctrlSwitch .flashWrite 1 oddByte).flash.cells 1 ≠ oddByte.mem.byte 0 0 := by
  decide +kernel

end HbcMac

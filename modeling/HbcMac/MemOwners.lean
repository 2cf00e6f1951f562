import HbcMac.FlashFrame
import HbcMac.Requests

/-!
# Who writes to the memory

Loader, receiver, memory test and flash commands share one write pointer, and interrupts come
between any two statements. Every word written is nevertheless put where its writer may put it: the
receiver writes in its ring, the loader at `load_addr`, the tests and copies in their block.
-/

namespace HbcMac

section
variable [Board]

/-! ## Writes -/

/-- What is written in between is in the log, has gone to addresses in `P`, and is all that has
happened to the cells. -/
def Writes (P : Word → Prop) (s s' : State) : Prop :=
  ∃ new, s'.mem.log = s.mem.log ++ new ∧ s'.mem.cells = replay s.mem.cells new ∧ ∀ w ∈ new, P w.1

namespace Writes

variable {P Q : Word → Prop} {s t u : State}

/-- Where nothing is written, the log stays. -/
theorem kept (hcells : t.mem.cells = s.mem.cells) (hlog : t.mem.log = s.mem.log) :
    Writes P s t :=
  ⟨[], hlog.trans (List.append_nil _).symm, hcells, fun _ h => absurd h List.not_mem_nil⟩

theorem refl (s : State) : Writes P s s := kept rfl rfl

theorem trans (h : Writes P s t) (h' : Writes P t u) : Writes P s u := by
  obtain ⟨new, hlog, hcells, hnew⟩ := h
  obtain ⟨new', hlog', hcells', hnew'⟩ := h'
  refine ⟨new ++ new', ?_, ?_, ?_⟩
  · rw [hlog', hlog, List.append_assoc]
  · rw [hcells', hcells, replay_append]
  · intro w hw
    exact (List.mem_append.mp hw).elim (hnew w) (hnew' w)

theorem mono (h : Writes P s t) (hPQ : ∀ a, P a → Q a) : Writes Q s t := by
  obtain ⟨new, hlog, hcells, hnew⟩ := h
  exact ⟨new, hlog, hcells, fun w hw => hPQ w.1 (hnew w hw)⟩

/-- One word to a place that may be written. -/
theorem word (data : Word) (hmem : t.mem = s.mem.write data) (h : P s.mem.wrP) :
    Writes P s t := by
  refine ⟨[(s.mem.wrP, data)], ?_, ?_, ?_⟩
  · rw [hmem, Mem.write_log]
  · rw [hmem, Mem.write_cells]
    rfl
  · intro w hw
    rw [List.mem_singleton.mp hw]
    exact h

/-- The cells that no address in `P` selects are as before. -/
theorem cells_of_ne (h : Writes P s t) {c : Word} (hc : ∀ a, P a → Board.cell a ≠ c) :
    t.mem.cells c = s.mem.cells c := by
  obtain ⟨new, -, hcells, hnew⟩ := h
  rw [hcells]
  exact replay_of_ne fun w hw => (hc w.1 (hnew w hw)).symm

end Writes

/-- The words of `bytes` bytes of memory from `start` on. -/
def Block (start bytes : ℕ) (a : Word) : Prop :=
  start ≤ a.toNat ∧ a.toNat < start + bytes ∧ 4 ∣ a.toNat

instance (start bytes : ℕ) (a : Word) : Decidable (Block start bytes a) :=
  inferInstanceAs (Decidable (_ ∧ _))

/-- The receive ring. -/
abbrev InRing : Word → Prop := Block memRxBuf.toNat halfSize

omit [Board] in
/-- The addresses of the ring are the places of its cursors. -/
theorem inRing_iff {a : Word} : InRing a ↔ ∃ k, 4 ∣ k ∧ a = ringAddr k := by
  constructor
  · rintro ⟨hlo, hhi, hdvd⟩
    obtain ⟨k, hk, -, hak⟩ := exists_ringAddr hlo (by rwa [memSize_toNat, Nat.two_mul]) hdvd
    exact ⟨k, hk, hak⟩
  · rintro ⟨k, hk, rfl⟩
    refine ⟨ringAddr_ge k, ?_, ringAddr_aligned hk⟩
    have hlt := ringAddr_lt k
    rwa [memSize_toNat, Nat.two_mul] at hlt

omit [Board] in
/-- Both pointers of the receiver stay in the ring. -/
theorem InRing.next {a : Word} (h : InRing a) : InRing (ringNext a) ∧ InRing (advance true a) := by
  obtain ⟨k, hk, rfl⟩ := inRing_iff.mp h
  have hnext : InRing (ringAddr (k + 4)) := inRing_iff.mpr ⟨k + 4, by omega, rfl⟩
  rw [ringNext_ringAddr hk, advance_ringAddr hk]
  exact ⟨hnext, hnext⟩

/-- A step that leaves the pointers of the receiver and the wrap flags as they are. -/
structure Confined (P : Word → Prop) (s s' : State) : Prop where
  writes : Writes P s s'
  flags : s'.mem.flags = s.mem.flags
  wrBufAddr : s'.rx.wrBufAddr = s.rx.wrBufAddr
  wrPacketAddr : s'.rx.wrPacketAddr = s.rx.wrPacketAddr

namespace Confined

variable {P Q : Word → Prop} {s t u : State}

theorem refl (s : State) : Confined P s s := ⟨Writes.refl s, rfl, rfl, rfl⟩

theorem trans (h : Confined P s t) (h' : Confined P t u) : Confined P s u :=
  ⟨h.writes.trans h'.writes, h'.flags.trans h.flags, h'.wrBufAddr.trans h.wrBufAddr,
    h'.wrPacketAddr.trans h.wrPacketAddr⟩

theorem mono (h : Confined P s t) (hPQ : ∀ a, P a → Q a) : Confined Q s t :=
  ⟨h.writes.mono hPQ, h.flags, h.wrBufAddr, h.wrPacketAddr⟩

/-- A step that does not touch memory and receiver. -/
theorem of_kept (h : MemKept s t) (hrx : t.rx = s.rx) : Confined P s t :=
  ⟨Writes.kept h.cells h.log, h.flags, congrArg _ hrx, congrArg _ hrx⟩

/-- Reading moves the cursors of the reader only. -/
theorem of_reader (h : ReaderStep s t) : Confined P s t :=
  ⟨Writes.kept h.cells h.log, h.flags, h.wrBufAddr, h.wrPacketAddr⟩

/-- The functions of the flash read from memory, `flash_read` apart. -/
theorem of_flash (h : OnlyFlash s t) : Confined P s t := by
  obtain ⟨chip, p, rfl⟩ := h
  exact .of_kept ⟨rfl, rfl, rfl⟩ rfl

end Confined

/-! ## What only reads -/

/-- The comparison only reads. -/
theorem readerStep_rxCheckLoop (bytes : ℕ) (correct chk data : Word) (s : State) :
    ReaderStep s (rxCheckLoop bytes correct chk data s).2 := by
  induction bytes generalizing correct chk data s with
  | zero => exact ReaderStep.refl s
  | succ bytes ih =>
    rw [rxCheckLoop]
    dsimp only
    split
    · refine ReaderStep.trans ?_ (ih _ _ _ _)
      exact ⟨rfl, rfl, rfl, rfl, rfl, rfl, rfl, rfl, rfl, rfl⟩
    · exact ih _ _ _ s

/-- So does the whole check. -/
theorem readerStep_rxCheckPacket (s : State) : ReaderStep s (rxCheckPacket s).2 := by
  have hready := readerStep_rxPacketReady s
  unfold rxCheckPacket
  dsimp only
  split
  · exact hready
  · split
    · exact hready.trans (readerStep_rxPacketNext _)
    · split
      · exact hready.trans (readerStep_rxPacketNext _)
      · refine ReaderStep.trans ?_ (readerStep_rxPacketNext _)
        refine ReaderStep.trans ?_ (readerStep_rxCheckLoop _ _ _ _ _)
        exact hready.trans ⟨rfl, rfl, rfl, rfl, rfl, rfl, rfl, rfl, rfl, rfl⟩

/-! ## The memory test and the flash -/

/-- `n` words one after the other. -/
theorem writes_memTestWrite {P : Word → Prop} (n : ℕ) {s : State}
    (h : ∀ i < n, P ((advance s.mem.writeWraps)^[i] s.mem.wrP)) :
    Writes P s (memTestWrite n s) := by
  induction n generalizing s with
  | zero => exact Writes.refl s
  | succ n ih =>
    rw [memTestWrite]
    have hfirst : Writes P s (memWrite (scramblerRead s).1 (scramblerRead s).2) :=
      Writes.word (scramblerRead s).1 rfl (h 0 (Nat.zero_lt_succ n))
    refine hfirst.trans (ih fun i hi => ?_)
    exact h (i + 1) (Nat.succ_lt_succ hi)

/-- The words from the chip go to successive addresses. -/
theorem writes_flashReadWords {P : Word → Prop} (n : ℕ) {s : State}
    (h : ∀ i < n, P ((advance s.mem.writeWraps)^[i] s.mem.wrP)) :
    Writes P s (flashReadWords n s) ∧ (flashReadWords n s).mem.flags = s.mem.flags := by
  induction n generalizing s with
  | zero => exact ⟨Writes.refl s, rfl⟩
  | succ n ih =>
    rw [flashReadWords]
    have hfirst : Writes P s (memWrite (flashTransferWord s).1 (flashTransferWord s).2) :=
      Writes.word (flashTransferWord s).1 rfl (h 0 (Nat.zero_lt_succ n))
    have hnext : (memWrite (flashTransferWord s).1 (flashTransferWord s).2).mem.flags
        = s.mem.flags := rfl
    obtain ⟨hrest, hflags⟩ := ih (s := memWrite (flashTransferWord s).1 (flashTransferWord s).2)
      fun i hi => h (i + 1) (Nat.succ_lt_succ hi)
    exact ⟨hfirst.trans hrest, hflags.trans hnext⟩

omit [Board] in
/-- A pointer that starts at a word address and does not come to the end of a half. -/
theorem advance_iterate_wordAddr {wrap : Bool} {b n : ℕ}
    (h : wrap = true → 4 * (b + n) < halfSize) :
    (advance wrap)^[n] (wordAddr b) = wordAddr (b + n) := by
  induction n with
  | zero => rfl
  | succ n ih =>
    have hstep : 4 * (b + n) ≤ 4 * (b + (n + 1)) := by omega
    rw [Function.iterate_succ_apply', ih fun hw => Nat.lt_of_le_of_lt hstep (h hw)]
    exact advance_wordAddr h

omit [Board] in
/-- Successive addresses stay in their block when it is all in one half. -/
theorem block_iterate {wrap : Bool} {b n i : ℕ} (hi : i < n)
    (h : wrap = true → 4 * (b + n) ≤ halfSize) (hfit : 4 * (b + n) ≤ 2 ^ 32) :
    Block (4 * b) (4 * n) ((advance wrap)^[i] (wordAddr b)) := by
  have hval : (wordAddr (b + i)).toNat = 4 * (b + i) := wordAddr_toNat (by omega)
  rw [advance_iterate_wordAddr fun hw => by have := h hw; omega, Block, hval]
  omega

/-- The memory test writes its words from address 0 on. -/
theorem confined_memTest {bytes : Word} {n : ℕ} (hn : bytes.toNat / 4 = n) (s : State) :
    Confined (Block 0 (4 * n)) s (memTest bytes s).2 := by
  have hrx := (devices_memTest bytes s).rx
  refine ⟨?_, rfl, congrArg _ hrx, congrArg _ hrx⟩
  have hread (n : ℕ) (errors : Word) (t : State) :
      (memTestRead n errors t).2.mem.cells = t.mem.cells ∧
      (memTestRead n errors t).2.mem.log = t.mem.log := by
    induction n generalizing errors t with
    | zero => exact ⟨rfl, rfl⟩
    | succ n ih => exact ih _ _
  -- the pointer does not wrap during the test
  have hpass := writes_memTestWrite n (P := Block 0 (4 * n))
    (s := scramblerReseed 0 (memSetWrP 0 (memSetFlags 0 s)))
    fun i hi => by
      have hlt := bytes.isLt
      have hblock := block_iterate hi (fun h => absurd h Bool.false_ne_true) (b := 0)
        (show 4 * (0 + n) ≤ 2 ^ 32 by omega)
      have hwraps : (scramblerReseed 0 (memSetWrP 0 (memSetFlags 0 s))).mem.writeWraps = false := by
        show ((0 : Byte) &&& memWriteWrap16M != 0) = false
        decide
      rw [hwraps]
      rwa [Nat.mul_zero] at hblock
  obtain ⟨hcells, hlog⟩ := hread n 0 (scramblerReseed 0 (memSetWrP 0 (memSetRdP 0
    (memTestWrite n (scramblerReseed 0 (memSetWrP 0 (memSetFlags 0 s)))))))
  unfold memTest
  rw [hn]
  exact (Writes.trans (Writes.kept rfl rfl) hpass).trans (Writes.kept hcells hlog)

/-- `flash_read` writes its block. -/
theorem confined_flashRead (s : State) {b : ℕ} (size flashAddr : Word)
    (hfit : 4 * (b + size.toNat / 4) ≤ halfSize) :
    Confined (Block (4 * b) (4 * (size.toNat / 4))) s
      (flashRead (wordAddr b) size flashAddr s) := by
  have hrx := (devices_flashRead (wordAddr b) size flashAddr s).rx
  have hsent : Writes (Block (4 * b) (4 * (size.toNat / 4))) s
      (flashSendAddr flashOpReadData flashAddr (memSetWrP (wordAddr b) s)) := Writes.kept rfl rfl
  obtain ⟨hpass, hflags⟩ := writes_flashReadWords (size.toNat / 4)
    (P := Block (4 * b) (4 * (size.toNat / 4)))
    (s := flashSendAddr flashOpReadData flashAddr (memSetWrP (wordAddr b) s))
    fun i hi => block_iterate hi (fun _ => hfit)
      (Nat.le_trans hfit (by rw [halfSize_eq]; decide))
  exact ⟨(hsent.trans hpass).trans (Writes.kept rfl rfl), hflags, congrArg _ hrx,
    congrArg _ hrx⟩

/-! ## The receive handlers -/

/-- The receiver about to write. -/
structure Receiving (s : State) : Prop where
  wraps : s.mem.writeWraps = true
  wrP : InRing s.mem.wrP
  wrBufAddr : InRing s.rx.wrBufAddr

/-- What the handlers do to the memory and to their own pointers. -/
structure RingStep (s s' : State) : Prop where
  writes : Writes InRing s s'
  receiving : Receiving s'
  wrPacketAddr : s'.rx.wrPacketAddr = s.rx.wrPacketAddr ∨ InRing s'.rx.wrPacketAddr

section
variable {s t : State}

theorem RingStep.trans {u : State} (h : RingStep s t) (h' : RingStep t u) : RingStep s u := by
  refine ⟨h.writes.trans h'.writes, h'.receiving, ?_⟩
  cases h'.wrPacketAddr with
  | inl hsame =>
    rw [hsame]
    exact h.wrPacketAddr
  | inr hring => exact .inr hring

/-- What leaves memory and receiver alone. -/
theorem ringStep_kept (h : Receiving s) (hmem : t.mem = s.mem) (hrx : t.rx = s.rx) :
    RingStep s t := by
  refine ⟨Writes.kept (congrArg _ hmem) (congrArg _ hmem), ⟨?_, ?_, ?_⟩, .inl (congrArg _ hrx)⟩
  · rw [hmem]
    exact h.wraps
  · rw [hmem]
    exact h.wrP
  · rw [hrx]
    exact h.wrBufAddr

/-- A poll lets words arrive. -/
theorem ringStep_rxDataReady (h : Receiving s) : RingStep s (rxDataReady s).2 := by
  rw [rxDataReady_eq]
  exact ringStep_kept h rfl rfl

theorem writeWraps_write (m : Mem) (data : Word) : (m.write data).writeWraps = m.writeWraps := rfl

/-- The pointer after a word in the ring. -/
theorem inRing_write {m : Mem} (hwraps : m.writeWraps = true) (h : InRing m.wrP) (data : Word) :
    InRing (m.write data).wrP := by
  rw [Mem.write_wrP, hwraps]
  exact h.next.2

/-- A payload word goes to the next place of the ring. -/
theorem ringStep_rxStoreWord (h : Receiving s) : RingStep s (rxStoreWord s) := by
  have hmem : ∃ data, (rxStoreWord s).mem = s.mem.write data := ⟨_, rfl⟩
  obtain ⟨data, hmem⟩ := hmem
  refine ⟨Writes.word data hmem h.wrP, ⟨?_, ?_, ?_⟩, .inl rfl⟩
  · rw [hmem, writeWraps_write]
    exact h.wraps
  · rw [hmem]
    exact inRing_write h.wraps h.wrP data
  · exact h.wrBufAddr.next.1

/-- Marker and header go to the next two. -/
theorem ringStep_rxStartPacket (h : Receiving s) : RingStep s (rxStartPacket s) := by
  have hfirst := inRing_write h.wraps h.wrP (-1)
  rw [rxStartPacket_eq]
  have hsecond := inRing_write (m := s.mem.write (-1)) h.wraps hfirst (fifoRead s).1
  refine ⟨?_, ⟨h.wraps, hsecond, h.wrBufAddr.next.1.next.1⟩, .inr h.wrBufAddr⟩
  have hmarker : Writes InRing s { s with mem := s.mem.write (-1) } := Writes.word _ rfl h.wrP
  exact hmarker.trans (Writes.word (fifoRead s).1 rfl hfirst)

/-- And so on until the FIFO is empty. -/
theorem ringStep_rxDrain (fuel : ℕ) (h : Receiving s) : RingStep s (rxDrain fuel s) := by
  induction fuel generalizing s with
  | zero => exact ringStep_kept h rfl rfl
  | succ fuel ih =>
    have hpoll := ringStep_rxDataReady h
    rw [rxDrain]
    split
    · have hstore := ringStep_rxStoreWord hpoll.receiving
      exact (hpoll.trans hstore).trans (ih hstore.receiving)
    · exact hpoll

/-- The place of the receiver between two interrupts. -/
structure RxPlace (s : State) : Prop where
  wraps : s.mem.writeWraps = true
  wrBufAddr : InRing s.rx.wrBufAddr
  /-- Before the first header there is no packet to mark. -/
  wrPacketAddr : s.rx.wrPacketAddr = 0 ∨ InRing s.rx.wrPacketAddr

/-- What is confined leaves the receiver in its place. -/
theorem RxPlace.confined {P : Word → Prop} (h : RxPlace s) (hst : Confined P s t) : RxPlace t where
  wraps := by rw [Mem.writeWraps, hst.flags]; exact h.wraps
  wrBufAddr := by rw [hst.wrBufAddr]; exact h.wrBufAddr
  wrPacketAddr := by rw [hst.wrPacketAddr]; exact h.wrPacketAddr

/-- A step of the receiver as a whole. -/
structure RingCall (P : Word → Prop) (s s' : State) : Prop where
  writes : Writes P s s'
  place : RxPlace s'
  wrPacketAddr : s'.rx.wrPacketAddr = s.rx.wrPacketAddr ∨ InRing s'.rx.wrPacketAddr

/-- The data handler writes to the ring. -/
theorem ringCall_rxDataIntFunc (h : RxPlace s) : RingCall InRing s (rxDataIntFunc s) := by
  have hseek : Receiving (memSetWrP s.rx.wrBufAddr s) := ⟨h.wraps, h.wrBufAddr, h.wrBufAddr⟩
  have hcall : RingStep (memSetWrP s.rx.wrBufAddr s) (rxDataIntFunc s) := by
    unfold rxDataIntFunc
    have hdrain {u : State} (hu : RingStep (memSetWrP s.rx.wrBufAddr s) u) (fuel : ℕ) :
        RingStep (memSetWrP s.rx.wrBufAddr s) (rxDrain fuel u) :=
      hu.trans (ringStep_rxDrain fuel hu.receiving)
    have hpoll := ringStep_rxDataReady hseek
    refine hdrain ?_ _
    split
    · dsimp only
      split
      · exact hpoll.trans (ringStep_rxStartPacket hpoll.receiving)
      · exact hpoll
    · exact ringStep_kept hseek rfl rfl
  have hwrites : Writes InRing s (memSetWrP s.rx.wrBufAddr s) := Writes.kept rfl rfl
  refine ⟨hwrites.trans hcall.writes,
    ⟨hcall.receiving.wraps, hcall.receiving.wrBufAddr, ?_⟩, hcall.wrPacketAddr⟩
  cases hcall.wrPacketAddr with
  | inl hsame =>
    rw [hsame]
    exact h.wrPacketAddr
  | inr hring => exact .inr hring

/-- The ring, and address zero as long as no packet has begun. -/
def RxTarget (s : State) (a : Word) : Prop := InRing a ∨ a = 0 ∧ s.rx.wrPacketAddr = 0

/-- The ready handler writes the marker too, where the packet has begun. -/
theorem ringCall_rxReadyIntFunc (h : RxPlace s) : RingCall (RxTarget s) s (rxReadyIntFunc s) := by
  have hwords : RingCall InRing s (rxLastWords s) := by
    have hpoll : (rxDataReady s).2.mem = s.mem ∧ (rxDataReady s).2.rx = s.rx := by
      rw [rxDataReady_eq]
      exact ⟨rfl, rfl⟩
    have hplace : RxPlace (rxDataReady s).2 :=
      h.confined (.of_kept (P := InRing) ⟨congrArg _ hpoll.1, congrArg _ hpoll.1,
        congrArg _ hpoll.1⟩ hpoll.2)
    have hkept : Writes InRing s (rxDataReady s).2 :=
      Writes.kept (congrArg _ hpoll.1) (congrArg _ hpoll.1)
    unfold rxLastWords
    split
    · have hcall := ringCall_rxDataIntFunc hplace
      refine ⟨hkept.trans hcall.writes, hcall.place, ?_⟩
      rw [← hpoll.2]
      exact hcall.wrPacketAddr
    · exact ⟨hkept, hplace, .inl (congrArg _ hpoll.2)⟩
  rw [rxReadyIntFunc_eq]
  generalize rxLastWords s = t at hwords
  obtain ⟨hwrites, hplace, hmarker⟩ := hwords
  -- the marker goes to the packet begun last
  have htarget : RxTarget s t.rx.wrPacketAddr := by
    cases hplace.wrPacketAddr with
    | inr hring => exact .inl hring
    | inl hzero =>
      cases hmarker with
      | inl hsame => exact .inr ⟨hzero, hsame.symm.trans hzero⟩
      | inr hring => exact .inl hring
  have hring := hwrites.mono (Q := RxTarget s) fun a ha => Or.inl ha
  unfold rxFinishPacket
  split
  · have hseek : Writes (RxTarget s) t (memSetWrP t.rx.wrPacketAddr t) := Writes.kept rfl rfl
    have hword : Writes (RxTarget s) (memSetWrP t.rx.wrPacketAddr t)
        (memWrite t.rx.wrBytes (memSetWrP t.rx.wrPacketAddr t)) := Writes.word _ rfl htarget
    refine ⟨?_, ⟨hplace.wraps, hplace.wrBufAddr, hplace.wrPacketAddr⟩, hmarker⟩
    exact (hring.trans (hseek.trans hword)).trans (Writes.kept rfl rfl)
  · exact ⟨hring.trans (Writes.kept rfl rfl), ⟨hplace.wraps, hplace.wrBufAddr,
      hplace.wrPacketAddr⟩, hmarker⟩

end

/-! ## Commands -/

section
variable [HostProtocol]

/-- The addresses a command writes to. -/
def Cmd.Target (cmd : Cmd) (s : State) (a : Word) : Prop :=
  match cmd with
  | .hbcTxPacket => a = s.spi.loadAddr
  | .memTest => Block 0 memSize.toNat a
  | .flashRead => Block 0 flashSize.toNat a
  | _ => False

/-- A command writes where it may. -/
theorem confined_ctrlSwitch (cmd : Cmd) (arg : Word) (s : State) :
    Confined (cmd.Target s) s (ctrlSwitch cmd arg s) := by
  have hreply {P : Word → Prop} {r : Word × State} (h : Confined P s r.2) :
      Confined P s (reply r) := h.trans (.of_kept ⟨rfl, rfl, rfl⟩ rfl)
  cases cmd with
  | hbcTxPacket => exact ⟨Writes.word (s := memSetWrP s.spi.loadAddr s) arg rfl rfl, rfl, rfl, rfl⟩
  | memTest =>
    have hn : memSize.toNat / 4 = 8388608 := rfl
    have hsize : 4 * 8388608 = memSize.toNat := rfl
    have htest := confined_memTest hn s
    rw [hsize] at htest
    exact hreply (r := ((memTest memSize s).1.setWidth 32, (memTest memSize s).2)) htest
  | flashRead =>
    have hsize : 4 * (flashSize.toNat / 4) = flashSize.toNat := rfl
    have hread := confined_flashRead s (b := 0) flashSize 0 (by decide)
    rw [Nat.mul_zero, hsize] at hread
    exact hreply (r := ((HostProtocol.code .flashRead).setWidth 32, flashRead 0 flashSize 0 s))
      hread
  | flashWrite =>
    have hwrite := onlyFlash_flashWrite 0 arg s.main.flashAddr s
    unfold ctrlSwitch
    dsimp only
    generalize flashWrite 0 arg s.main.flashAddr s = t at hwrite
    exact hreply (.of_flash (hwrite.trans (onlyFlash_flashVerify _ _ _ _)))
  | hbcRxCheck => exact hreply (.of_reader (readerStep_rxCheckPacket s))
  | hbcRxNext => exact .of_reader (readerStep_rxPacketNext s)
  | hbcTxFilter =>
    obtain ⟨level, hcase⟩ := ctrlSwitch_filter arg s
    rw [hcase]
    exact .of_kept ⟨rfl, rfl, rfl⟩ rfl
  | _ => exact ⟨Writes.kept rfl rfl, rfl, rfl, rfl⟩

/-- The bytes behind it are not written to memory. -/
theorem confined_execCmd (cmd : Byte) (arg : Word) (s : State) :
    Confined (fun a => ∃ c, decodeCmd cmd = some c ∧ c.Target s a) s (execCmd cmd arg s) := by
  have hswitch : Confined (fun a => ∃ c, decodeCmd cmd = some c ∧ c.Target s a) s
      ((decodeCmd cmd).elim s fun c => ctrlSwitch c arg s) := by
    cases decodeCmd cmd with
    | none => exact Confined.refl s
    | some c => exact (confined_ctrlSwitch c arg s).mono fun a ha => ⟨c, rfl, ha⟩
  obtain ⟨n, d, hack⟩ := registered_ack cmd arg s
  rw [execCmd_eq, hack]
  refine (hswitch.trans ?_).trans (.of_reader (readerStep_hbcDataIrq _).1)
  exact .of_kept ⟨rfl, rfl, rfl⟩ rfl

/-! ## The owner of a write -/

/-- The bytes that put a word at `load_addr`: the fourth of a word, and the last of a command for a
packet. -/
def Sys.loadsWord (y : Sys) (e : Event) : Bool :=
  match e with
  | .ctrl _ => (y.fw.dev.spi.loadingMem ≠ 0 && y.fw.dev.spi.loadIndex = 3)
    || (y.command e).map Prod.fst = some .hbcTxPacket
  | _ => false

/-- Where the writes of an event may go. -/
def Sys.MayWrite (y : Sys) (e : Event) (a : Word) : Prop :=
  match e with
  | .main => y.pc = .psocCall ∧ Block flashAddrPsocConf.toNat flashPsocSize.toNat a
  | .ctrl _ =>
    y.loadsWord e = true ∧ a = y.fw.dev.spi.loadAddr ∨
    (y.command e).map Prod.fst = some .memTest ∧ Block 0 memSize.toNat a ∨
    (y.command e).map Prod.fst = some .flashRead ∧ Block 0 flashSize.toNat a
  | .data => False
  | .rxData _ => InRing a
  | .rxReady _ => RxTarget y.fw.dev a

instance (y : Sys) (e : Event) (a : Word) : Decidable (y.MayWrite e a) :=
  match e with
  | .main => inferInstanceAs (Decidable (_ ∧ _))
  | .ctrl _ => inferInstanceAs (Decidable (_ ∨ _))
  | .data => inferInstanceAs (Decidable False)
  | .rxData _ => inferInstanceAs (Decidable (InRing a))
  | .rxReady _ => inferInstanceAs (Decidable (_ ∨ _))

/-- A byte on the control port is the loader's, or completes a command. -/
theorem confined_ctrl {y : Sys} (hpc : y.pc ≠ .psocHang) (b : Byte) :
    Confined (y.MayWrite (.ctrl b)) y.fw.dev (y.step (.ctrl b)).fw.dev := by
  rw [Sys.step_ctrl hpc]
  dsimp only
  rw [hbcCtrlIrq_dev]
  have hnext (t : State) : Confined (y.MayWrite (.ctrl b)) t (ctrlReqNext t) :=
    .of_kept ⟨rfl, rfl, rfl⟩ rfl
  refine Confined.trans ?_ (hnext _)
  have hcommand : y.command (.ctrl b) = acceptedCase b y.fw := Sys.command_ctrl hpc b
  cases haccept : acceptedCmd b y.fw with
  | none =>
    show Confined _ y.fw.dev (if y.fw.dev.spi.loadingMem ≠ 0 then _ else _)
    split
    · next hload =>
      by_cases hword : y.fw.dev.spi.loadIndex + 1 = 4
      · have howner : y.MayWrite (.ctrl b) y.fw.dev.spi.loadAddr := by
          refine .inl ⟨?_, rfl⟩
          have hindex : y.fw.dev.spi.loadIndex = 3 := by omega
          simp [Sys.loadsWord, hload, hindex]
        rw [loadByte_word hword]
        exact ⟨Writes.word (s := memSetWrP y.fw.dev.spi.loadAddr y.fw.dev) _ rfl howner, rfl, rfl,
          rfl⟩
      · rw [loadByte_within hword]
        exact .of_kept ⟨rfl, rfl, rfl⟩ rfl
    · exact Confined.refl _
  | some r =>
    refine (confined_execCmd r.1 r.2 y.fw.dev).mono fun a ha => ?_
    obtain ⟨c, hdecode, htarget⟩ := ha
    have hfst : (y.command (.ctrl b)).map Prod.fst = some c := by
      rw [hcommand, acceptedCase, haccept, Option.bind_some, hdecode]
      rfl
    cases c with
    | hbcTxPacket =>
      refine .inl ⟨?_, htarget⟩
      rw [Sys.loadsWord, hfst, decide_eq_true rfl, Bool.or_true]
    | memTest => exact .inr (.inl ⟨hfst, htarget⟩)
    | flashRead => exact .inr (.inr ⟨hfst, htarget⟩)
    | _ => exact htarget.elim

/-- The receive interrupts. -/
def Event.receives : Event → Bool
  | .rxData _ | .rxReady _ => true
  | _ => false

/-- Everything but a receive interrupt. -/
theorem confined_step {y : Sys} {e : Event} (he : e.receives = false) :
    Confined (y.MayWrite e) y.fw.dev (y.step e).fw.dev := by
  by_cases hpc : y.pc = .psocHang
  · rw [Sys.step_hang hpc]
    exact Confined.refl _
  · cases e with
    | main =>
      rw [Sys.step_main hpc]
      by_cases hcall : y.pc = .psocCall
      · have hsize : 4 * (flashPsocSize.toNat / 4) = flashPsocSize.toNat := rfl
        have hstart : 4 * (flashAddrPsocConf.toNat / 4) = flashAddrPsocConf.toNat := rfl
        have haddr : wordAddr (flashAddrPsocConf.toNat / 4) = flashAddrPsocConf := rfl
        have hread := confined_flashRead y.fw.dev (b := flashAddrPsocConf.toNat / 4)
          flashPsocSize flashAddrPsocConf (by decide)
        rw [hsize, hstart, haddr] at hread
        rw [hcall]
        exact hread.mono fun a ha => ⟨hcall, ha⟩
      · have hkept := memKept_mainStep hcall y.fw.dev
        by_cases hforward : ∃ forward, y.pc = .rxCall forward
        · obtain ⟨forward, hforward⟩ := hforward
          rw [hforward]
          exact .of_reader (readerStep_hbcToSpi forward y.fw.dev)
        · have hrx := rx_mainStep (fun forward hf => hforward ⟨forward, hf⟩) y.fw.dev
          exact .of_kept hkept hrx
    | ctrl b => exact confined_ctrl hpc b
    | data =>
      rw [Sys.step_data hpc]
      exact .of_reader (readerStep_hbcDataIrq y.fw.dev).1
    | rxData arr | rxReady arr => cases he

/-- **One step.** -/
theorem RxPlace.step {y : Sys} (h : RxPlace y.fw.dev) (e : Event) :
    Writes (y.MayWrite e) y.fw.dev (y.step e).fw.dev ∧ RxPlace (y.step e).fw.dev ∧
      ((y.step e).fw.dev.rx.wrPacketAddr = y.fw.dev.rx.wrPacketAddr ∨
        InRing (y.step e).fw.dev.rx.wrPacketAddr) := by
  have hconfined (ht : Confined (y.MayWrite e) y.fw.dev (y.step e).fw.dev) :
      Writes (y.MayWrite e) y.fw.dev (y.step e).fw.dev ∧ RxPlace (y.step e).fw.dev ∧
        ((y.step e).fw.dev.rx.wrPacketAddr = y.fw.dev.rx.wrPacketAddr ∨
          InRing (y.step e).fw.dev.rx.wrPacketAddr) :=
    ⟨ht.writes, h.confined ht, .inl ht.wrPacketAddr⟩
  by_cases hpc : y.pc = .psocHang
  · rw [Sys.step_hang hpc] at hconfined ⊢
    exact hconfined (Confined.refl _)
  · cases e with
    | main | ctrl b | data => exact hconfined (confined_step rfl)
    | rxData arr =>
      have hcall := ringCall_rxDataIntFunc (s := { y.fw.dev with rxFifo.arrivals := arr })
        ⟨h.wraps, h.wrBufAddr, h.wrPacketAddr⟩
      rw [Sys.step_rxData hpc]
      exact ⟨hcall.writes, ⟨hcall.place.wraps, hcall.place.wrBufAddr, hcall.place.wrPacketAddr⟩,
        hcall.wrPacketAddr⟩
    | rxReady arr =>
      have hcall := ringCall_rxReadyIntFunc (s := { y.fw.dev with rxFifo.arrivals := arr })
        ⟨h.wraps, h.wrBufAddr, h.wrPacketAddr⟩
      rw [Sys.step_rxReady hpc]
      exact ⟨hcall.writes, ⟨hcall.place.wraps, hcall.place.wrBufAddr, hcall.place.wrPacketAddr⟩,
        hcall.wrPacketAddr⟩

/-! ## Over a run -/

omit [Board] [HostProtocol] in
/-- The receiver starts in its place. -/
theorem rxPlace_boot {s : State} (h : Boot s) : RxPlace s where
  wraps := by
    rw [Mem.writeWraps, h.flags]
    decide
  wrBufAddr := by
    rw [h.rx]
    exact inRing_iff.mpr ⟨0, Nat.dvd_zero 4, rfl⟩
  wrPacketAddr := by
    rw [h.rx]
    exact .inl rfl

/-- It stays there. -/
theorem RxPlace.run {y : Sys} (h : RxPlace y.fw.dev) (evs : List Event) :
    RxPlace (Run.run Sys.step y evs).fw.dev :=
  Run.run_of_invariant (I := fun z : Sys => RxPlace z.fw.dev) (fun _ e hz => (hz.step e).2.1) h evs

/-- Every step of a run writes where it may. -/
theorem RxPlace.steps {y : Sys} (h : RxPlace y.fw.dev) (evs : List Event) :
    Run.Steps Sys.step (fun z e => Writes (z.MayWrite e) z.fw.dev (z.step e).fw.dev) y evs := by
  have hplaces : Run.Always Sys.step (fun z => RxPlace z.fw.dev) y evs :=
    Run.always_of_step (C := fun _ _ => True) (fun _ e hz _ => (hz.step e).2.1) h
      (Run.steps_of_forall fun _ _ _ => trivial)
  exact hplaces.steps.mono fun z e hz => (hz.1.step e).1

/-- The writes of the steps make up those of the run. -/
theorem writes_run {P : Sys → Event → Word → Prop} {y : Sys} {evs : List Event}
    (h : Run.Steps Sys.step (fun z e => Writes (P z e) z.fw.dev (z.step e).fw.dev) y evs) :
    Writes (fun _ => True) y.fw.dev (Run.run Sys.step y evs).fw.dev := by
  induction evs generalizing y with
  | nil => exact Writes.refl _
  | cons e evs ih => exact (h.1.mono fun _ _ => trivial).trans (ih h.2)

/-- **Every write has an owner.** From start-up on, whatever the order of main loop and interrupts,
each step adds to the log only words it may write to their addresses, and changes the memory by
nothing else; the log of the run is what its steps have added, and the memory what these writes
leave. -/
theorem writes_owned {s : State} (hboot : Boot s) (evs : List Event) :
    Run.Steps Sys.step (fun y e => ∃ new, (y.step e).fw.dev.mem.log = y.fw.dev.mem.log ++ new ∧
        (y.step e).fw.dev.mem.cells = replay y.fw.dev.mem.cells new ∧
        ∀ w ∈ new, y.MayWrite e w.1) (Sys.boot s) evs ∧
      ∃ new, (Run.run Sys.step (Sys.boot s) evs).fw.dev.mem.log = s.mem.log ++ new ∧
        (Run.run Sys.step (Sys.boot s) evs).fw.dev.mem.cells = replay s.mem.cells new := by
  have hsteps := (rxPlace_boot hboot : RxPlace (Sys.boot s).fw.dev).steps evs
  obtain ⟨new, hlog, hcells, -⟩ := writes_run hsteps
  exact ⟨hsteps, new, hlog, hcells⟩

end

end

/-! ## Two halves -/

section
variable [Dram]

/-- Distinct words of the memory have cells of their own. -/
theorem Writes.get {P : Word → Prop} {s t : State} (h : Writes P s t) {a : Word}
    (ha : Block 0 memSize.toNat a) (hP : ∀ b, P b → Block 0 memSize.toNat b ∧ b ≠ a) :
    t.mem.get a = s.mem.get a := by
  apply h.cells_of_ne
  intro b hb hcell
  obtain ⟨⟨-, hlt, hdvd⟩, hne⟩ := hP b hb
  rw [Nat.zero_add] at hlt
  exact hne (Dram.cell_inj b a hlt (by simpa using ha.2.1) hdvd ha.2.2 hcell)

omit [Dram] in
/-- The ring is part of the memory. -/
theorem Block.of_ring {a : Word} (h : InRing a) : Block 0 memSize.toNat a := by
  obtain ⟨-, hhi, hdvd⟩ := h
  rw [memRxBuf_toNat] at hhi
  exact ⟨Nat.zero_le _, by rw [memSize_toNat]; omega, hdvd⟩

omit [Dram] in
/-- The other half is apart from it. -/
theorem Block.of_low {a : Word} (h : Block 0 halfSize a) :
    Block 0 memSize.toNat a ∧ ¬ InRing a := by
  obtain ⟨-, hhi, hdvd⟩ := h
  refine ⟨⟨Nat.zero_le _, by rw [memSize_toNat]; omega, hdvd⟩, fun hring => ?_⟩
  have hlo := hring.1
  rw [memRxBuf_toNat] at hlo
  omega

variable [HostProtocol]

omit [Dram] in
/-- Apart from the receiver and the memory test, words go to the words of the memory, if the loader
does. -/
theorem Sys.MayWrite.block [Board] {y : Sys} {e : Event} {a : Word} {n : ℕ} (ha : y.MayWrite e a)
    (he : e.receives = false) (hn : flashSize.toNat ≤ n)
    (hload : y.loadsWord e = true → Block 0 n y.fw.dev.spi.loadAddr)
    (htest : (y.command e).map Prod.fst = some .memTest → memSize.toNat ≤ n) : Block 0 n a := by
  have hsub {start bytes : ℕ} (hb : Block start bytes a) (hend : start + bytes ≤ n) :
      Block 0 n a := by
    obtain ⟨-, hhi, hdvd⟩ := hb
    exact ⟨Nat.zero_le _, by omega, hdvd⟩
  cases e with
  | main =>
    have hend : flashAddrPsocConf.toNat + flashPsocSize.toNat ≤ flashSize.toNat := by decide
    exact hsub ha.2 (Nat.le_trans hend hn)
  | ctrl b =>
    obtain ⟨hword, rfl⟩ | ⟨hcase, hb⟩ | ⟨-, hb⟩ := ha
    · exact hload hword
    · exact hsub hb (by have := htest hcase; omega)
    · exact hsub hb (by omega)
  | data => exact ha.elim
  | rxData arr | rxReady arr => cases he

/-- The host does not test the memory and loads to the transmit half. -/
def LoadsLow (y : Sys) (e : Event) : Prop :=
  (y.command e).map Prod.fst ≠ some .memTest ∧
    (y.loadsWord e = true → Block 0 halfSize y.fw.dev.spi.loadAddr)

instance (y : Sys) (e : Event) : Decidable (LoadsLow y e) := inferInstanceAs (Decidable (_ ∧ _))

/-- Beside the receiver no step of such a host changes a word of the ring. -/
theorem LoadsLow.get {y : Sys} {e : Event} (h : LoadsLow y e) (he : e.receives = false) {a : Word}
    (ha : InRing a) : (y.step e).fw.dev.mem.get a = y.fw.dev.mem.get a := by
  refine (confined_step he).writes.get ha.of_ring fun b hb => ?_
  have hlow := hb.block he (by decide) h.2 fun htest => absurd htest h.1
  obtain ⟨hblock, hring⟩ := hlow.of_low
  exact ⟨hblock, fun hba => hring (hba ▸ ha)⟩

/-- **The ring belongs to the receiver.** As long as the host loads to the transmit half, nothing
but a receive interrupt changes a word of the ring. -/
theorem ring_kept {s : State} (hboot : Boot s) (evs : List Event) {es : List Event}
    (hlow : Run.Steps Sys.step LoadsLow (Run.run Sys.step (Sys.boot s) evs) es)
    (hquiet : ∀ e ∈ es, e.receives = false) {a : Word} (ha : InRing a) :
    (Run.run Sys.step (Sys.boot s) (evs ++ es)).fw.dev.mem.get a
      = (Run.run Sys.step (Sys.boot s) evs).fw.dev.mem.get a := by
  have hplace := RxPlace.run (rxPlace_boot hboot : RxPlace (Sys.boot s).fw.dev) evs
  rw [Run.run_append]
  generalize Run.run Sys.step (Sys.boot s) evs = y at hlow hplace ⊢
  refine (Run.run_of_step (I := fun z : Sys => RxPlace z.fw.dev ∧
    z.fw.dev.mem.get a = y.fw.dev.mem.get a) ?_ ⟨hplace, rfl⟩
    (hlow.and (Run.steps_of_forall fun _ => hquiet))).2
  rintro z e ⟨hz, hget⟩ ⟨hstep, he⟩
  exact ⟨(hz.step e).2.1, (hstep.get he ha).trans hget⟩

/-- Beside the receiver nothing writes to `a`, and the loader to nothing but words of the memory. -/
def Spares (a : Word) (y : Sys) (e : Event) : Prop :=
  e.receives = false → ¬ y.MayWrite e a ∧
    (y.loadsWord e = true → Block 0 memSize.toNat y.fw.dev.spi.loadAddr)

instance (a : Word) (y : Sys) (e : Event) : Decidable (Spares a y e) :=
  inferInstanceAs (Decidable (_ → _))

/-- **The transmit half belongs to the host.** Once a packet has been received, a word below the
ring survives any number of packets, until the host itself overwrites it. -/
theorem low_kept {s : State} (hboot : Boot s) (evs : List Event) {es : List Event} {a : Word}
    (hbegun : (Run.run Sys.step (Sys.boot s) evs).fw.dev.rx.wrPacketAddr ≠ 0)
    (hspares : Run.Steps Sys.step (Spares a) (Run.run Sys.step (Sys.boot s) evs) es)
    (ha : Block 0 halfSize a) :
    (Run.run Sys.step (Sys.boot s) (evs ++ es)).fw.dev.mem.get a
      = (Run.run Sys.step (Sys.boot s) evs).fw.dev.mem.get a := by
  have hplace := RxPlace.run (rxPlace_boot hboot : RxPlace (Sys.boot s).fw.dev) evs
  obtain ⟨hblock, hring⟩ := ha.of_low
  rw [Run.run_append]
  generalize Run.run Sys.step (Sys.boot s) evs = y at hbegun hspares hplace ⊢
  refine (Run.run_of_step (I := fun z : Sys => RxPlace z.fw.dev ∧
    z.fw.dev.rx.wrPacketAddr ≠ 0 ∧ z.fw.dev.mem.get a = y.fw.dev.mem.get a) ?_
    ⟨hplace, hbegun, rfl⟩ hspares).2.2
  rintro z e ⟨hz, hpacket, hget⟩ hstep
  obtain ⟨hwrites, hnext, hmarker⟩ := hz.step e
  refine ⟨hnext, ?_, (hwrites.get hblock fun b hb => ?_).trans hget⟩
  · cases hmarker with
    | inl hsame => rwa [hsame]
    | inr hbegun =>
      intro hzero
      rw [hzero] at hbegun
      exact absurd hbegun.1 (by decide)
  · cases he : e.receives with
    | false =>
      obtain ⟨hspared, hload⟩ := hstep he
      exact ⟨hb.block he (by decide) hload fun _ => Nat.le_refl _, fun hba => hspared (hba ▸ hb)⟩
    | true =>
      have htarget : InRing b := by
        cases e with
        | rxData arr => exact hb
        | rxReady arr => exact hb.resolve_right fun hzero => hpacket hzero.2
        | _ => cases he
      exact ⟨htarget.of_ring, fun hba => hring (hba ▸ htarget)⟩

end

/-- A packet comes in, and the host loads four bytes to 8 and reads them back. -/
def receiveThenLoad [HostProtocol] : List Event := .rxReady [[0xDA040000, 0x44332211]] :: fourBytes

/-- A run in which receiver and loader write. -/
theorem writes_owned_packet :
    letI := plainDram
    letI := plainProtocol
    Run.Steps Sys.step (fun y e => ∃ new, (y.step e).fw.dev.mem.log = y.fw.dev.mem.log ++ new ∧
        (y.step e).fw.dev.mem.cells = replay y.fw.dev.mem.cells new ∧
        ∀ w ∈ new, y.MayWrite e w.1) (Sys.boot bootState) receiveThenLoad ∧
      ∃ new, (Run.run Sys.step (Sys.boot bootState) receiveThenLoad).fw.dev.mem.log
          = bootState.mem.log ++ new ∧
        (Run.run Sys.step (Sys.boot bootState) receiveThenLoad).fw.dev.mem.cells
          = replay bootState.mem.cells new := by
  exact @writes_owned plainDram.toBoard plainProtocol bootState bootState_boot _

theorem fourBytes_low :
    letI := plainDram
    letI := plainProtocol
    Run.Steps Sys.step LoadsLow
      (Run.run Sys.step (Sys.boot bootState) [.rxReady [[0xDA040000, 0x44332211]]]) fourBytes := by
  decide +kernel

theorem fourBytes_quiet :
    letI := plainProtocol
    ∀ e ∈ fourBytes, e.receives = false := by
  decide +kernel

/-- The packet is still there after the load. -/
theorem ring_kept_load :
    letI := plainDram
    letI := plainProtocol
    (Run.run Sys.step (Sys.boot bootState)
      ([.rxReady [[0xDA040000, 0x44332211]]] ++ fourBytes)).fw.dev.mem.get (ringAddr 4)
    = (Run.run Sys.step (Sys.boot bootState)
      [.rxReady [[0xDA040000, 0x44332211]]]).fw.dev.mem.get (ringAddr 4) := by
  exact @ring_kept plainDram plainProtocol bootState bootState_boot _ _ fourBytes_low
    fourBytes_quiet _ (by decide)

theorem receiveThenLoad_begun :
    letI := plainDram
    letI := plainProtocol
    (Run.run Sys.step (Sys.boot bootState) receiveThenLoad).fw.dev.rx.wrPacketAddr ≠ 0 := by
  decide +kernel

theorem receiveThenLoad_spares :
    letI := plainDram
    letI := plainProtocol
    Run.Steps Sys.step (Spares 8) (Run.run Sys.step (Sys.boot bootState) receiveThenLoad)
      [.main, .rxReady [[0xDA040000, 0x88776655]], .data] := by
  decide +kernel

/-- The load is still there after a packet. -/
theorem low_kept_load :
    letI := plainDram
    letI := plainProtocol
    (Run.run Sys.step (Sys.boot bootState)
      (receiveThenLoad ++ [.main, .rxReady [[0xDA040000, 0x88776655]], .data])).fw.dev.mem.get 8
    = (Run.run Sys.step (Sys.boot bootState) receiveThenLoad).fw.dev.mem.get 8 := by
  exact @low_kept plainDram plainProtocol bootState bootState_boot _ _ _ receiveThenLoad_begun
    receiveThenLoad_spares (by decide)

-- without a packet begun, the size of words taken without a header goes to address 0
example :
    letI := plainDram
    letI := plainProtocol
    (Run.run Sys.step (Sys.boot bootState) [.rxData [[], [7]], .rxReady []]).fw.dev.mem.log
      = [(ringAddr 0, 7), (0, 4)] := by
  decide +kernel

end HbcMac

import HbcMac.MemOwners

/-!
# The ring beside everything else

The main loop, the commands and the data port leave the FIFO and the writer of the ring as they
are. What they can do to a packet in progress is to move the scrambler on; between two packets not
even that matters.
-/

namespace HbcMac

/-- The FIFO and the writer are as they were. -/
structure WriterKept (s t : State) : Prop where
  rxFifo : t.rxFifo = s.rxFifo
  wrBufAddr : t.rx.wrBufAddr = s.rx.wrBufAddr
  wrBytes : t.rx.wrBytes = s.rx.wrBytes
  wrPacketAddr : t.rx.wrPacketAddr = s.rx.wrPacketAddr
  rxState : t.rx.rxState = s.rx.rxState

namespace WriterKept

variable {s t u : State}

theorem trans (h : WriterKept s t) (h' : WriterKept t u) : WriterKept s u :=
  ⟨h'.rxFifo.trans h.rxFifo, h'.wrBufAddr.trans h.wrBufAddr, h'.wrBytes.trans h.wrBytes,
    h'.wrPacketAddr.trans h.wrPacketAddr, h'.rxState.trans h.rxState⟩

/-- FIFO and variables are all that counts. -/
theorem of_rx (hfifo : t.rxFifo = s.rxFifo) (hrx : t.rx = s.rx) : WriterKept s t :=
  ⟨hfifo, congrArg _ hrx, congrArg _ hrx, congrArg _ hrx, congrArg _ hrx⟩

theorem refl (s : State) : WriterKept s s := .of_rx rfl rfl

/-- The reader does not disturb the writer. -/
theorem of_reader (h : ReaderStep s t) : WriterKept s t :=
  ⟨h.rxFifo, h.wrBufAddr, h.wrBytes, h.wrPacketAddr, h.rxState⟩

end WriterKept

section
variable [Board]

/-! ## Commands -/

/-- The memory test works on the memory and the scrambler. -/
theorem memTest_frame (bytes : Word) (s : State) :
    ∃ scram mem, (memTest bytes s).2 = { s with scram := scram, mem := mem } := by
  have hwrite (n : ℕ) (s : State) :
      ∃ scram mem, memTestWrite n s = { s with scram := scram, mem := mem } := by
    induction n generalizing s with
    | zero => exact ⟨_, _, rfl⟩
    | succ n ih =>
      obtain ⟨scram, mem, hrest⟩ := ih (memWrite (scramblerRead s).1 (scramblerRead s).2)
      rw [memTestWrite, hrest]
      exact ⟨scram, mem, rfl⟩
  have hread (n : ℕ) (errors : Word) (s : State) :
      ∃ scram mem, (memTestRead n errors s).2 = { s with scram := scram, mem := mem } := by
    induction n generalizing errors s with
    | zero => exact ⟨_, _, rfl⟩
    | succ n ih =>
      obtain ⟨scram, mem, hrest⟩ := ih
        (if (memRead s).1 ≠ (scramblerRead (memRead s).2).1 then errors + 1 else errors)
        (scramblerRead (memRead s).2).2
      rw [memTestRead, hrest]
      exact ⟨scram, mem, rfl⟩
  unfold memTest
  generalize bytes.toNat / 4 = n
  dsimp only
  obtain ⟨scram, mem, hfirst⟩ := hwrite n (scramblerReseed 0 (memSetWrP 0 (memSetFlags 0 s)))
  rw [hfirst]
  obtain ⟨scram', mem', hsecond⟩ := hread n 0 (scramblerReseed 0 (memSetWrP 0 (memSetRdP 0
    { scramblerReseed 0 (memSetWrP 0 (memSetFlags 0 s)) with scram := scram, mem := mem })))
  rw [hsecond]
  exact ⟨_, _, rfl⟩

variable [HostProtocol]

/-- Nor does a command. -/
theorem writerKept_ctrlSwitch (cmd : Cmd) (arg : Word) (s : State) :
    WriterKept s (ctrlSwitch cmd arg s) := by
  have hreply {r : Word × State} (h : WriterKept s r.2) : WriterKept s (reply r) :=
    h.trans (.of_rx rfl rfl)
  cases cmd with
  | memTest =>
    obtain ⟨scram, mem, htest⟩ := memTest_frame memSize s
    exact hreply (r := ((memTest memSize s).1.setWidth 32, (memTest memSize s).2))
      (by rw [htest]; exact .of_rx rfl rfl)
  | flashRead =>
    obtain ⟨chip, mem, hread⟩ := flashRead_frame 0 flashSize 0 s
    exact hreply (r := ((HostProtocol.code .flashRead).setWidth 32, flashRead 0 flashSize 0 s))
      (by rw [hread]; exact .of_rx rfl rfl)
  | flashWrite =>
    have hwrite := onlyFlash_flashWrite 0 arg s.main.flashAddr s
    unfold ctrlSwitch
    dsimp only
    generalize flashWrite 0 arg s.main.flashAddr s = t at hwrite
    obtain ⟨chip, p, hverify⟩ := hwrite.trans (onlyFlash_flashVerify 0 arg t.main.flashAddr t)
    exact hreply (by rw [hverify]; exact .of_rx rfl rfl)
  | hbcRxReady => exact hreply (.of_reader (readerStep_rxPacketReady s))
  | hbcRxRead => exact hreply (.of_reader (readerStep_rxRead s))
  | hbcRxCheck => exact hreply (.of_reader (readerStep_rxCheckPacket s))
  | hbcRxNext => exact .of_reader (readerStep_rxPacketNext s)
  | hbcTxFilter =>
    obtain ⟨level, hcase⟩ := ctrlSwitch_filter arg s
    rw [hcase]
    exact .of_rx rfl rfl
  | _ => exact .of_rx rfl rfl

/-- The commands that read words from the scrambler. -/
def Cmd.scrambles : Cmd → Bool
  | .scramblerRead | .memTest => true
  | _ => false

/-- Two commands read from the scrambler. -/
theorem ctrlSwitch_scram {cmd : Cmd} (h : cmd.scrambles = false) (arg : Word) (s : State) :
    (ctrlSwitch cmd arg s).scram = s.scram := by
  have hreply {r : Word × State} (h : r.2.scram = s.scram) : (reply r).scram = s.scram := h
  cases cmd with
  | scramblerRead | memTest => cases h
  | flashRead =>
    obtain ⟨chip, mem, hread⟩ := flashRead_frame 0 flashSize 0 s
    exact hreply (r := ((HostProtocol.code .flashRead).setWidth 32, flashRead 0 flashSize 0 s))
      (by rw [hread])
  | flashWrite =>
    have hwrite := onlyFlash_flashWrite 0 arg s.main.flashAddr s
    unfold ctrlSwitch
    dsimp only
    generalize flashWrite 0 arg s.main.flashAddr s = t at hwrite
    obtain ⟨chip, p, hverify⟩ := hwrite.trans (onlyFlash_flashVerify 0 arg t.main.flashAddr t)
    exact hreply (by rw [hverify])
  | hbcRxCheck => exact (readerStep_rxCheckPacket s).scram
  | hbcRxNext => exact (readerStep_rxPacketNext s).scram
  | hbcTxFilter =>
    obtain ⟨level, hcase⟩ := ctrlSwitch_filter arg s
    rw [hcase]
    rfl
  | _ => rfl

/-! ## Steps -/

/-- The step sends a frame, or executes a command that reads from the scrambler. -/
def Sys.scrambles (y : Sys) (e : Event) : Bool :=
  match e with
  | .main => y.pc = .trigBuild || y.pc = .autoBuild
  | _ => (y.command e).any fun r => r.1.scrambles

/-- Nor does the main loop. -/
theorem writerKept_mainStep (pc : Pc) (s : State) : WriterKept s (mainStep pc s).2 := by
  have heffect := mainStep_effect pc s
  have hframe (t : State) : WriterKept t (sendFrame t).2 :=
    .of_rx (frameStep_sendFrame t).rxFifo (frameStep_sendFrame t).rx
  generalize (mainStep pc s).2 = s' at heffect ⊢
  cases heffect with
  | vars main => exact .of_rx rfl rfl
  | led => exact .of_reader (readerStep_ledToggle s)
  | rxOff | rxOn => exact .of_rx rfl rfl
  | trigFrame =>
    have hseek : WriterKept s (memSetRdP 0 s) := .of_rx rfl rfl
    exact hseek.trans (hframe (memSetRdP 0 s))
  | autoFrame pktAddr =>
    have hread : WriterKept s (autoRead s) := .of_rx rfl rfl
    exact (hread.trans (hframe (autoRead s))).trans (.of_rx rfl rfl)
  | forward forward => exact .of_reader (readerStep_hbcToSpi forward s)
  | psoc =>
    obtain ⟨chip, mem, hread⟩ :=
      flashRead_frame flashAddrPsocConf flashPsocSize flashAddrPsocConf s
    rw [hread]
    exact .of_rx rfl rfl

/-- It uses the scrambler for frames only. -/
theorem mainStep_scram {pc : Pc} (htrig : pc ≠ .trigBuild) (hauto : pc ≠ .autoBuild) (s : State) :
    (mainStep pc s).2.scram = s.scram := by
  have heffect := mainStep_effect pc s
  generalize (mainStep pc s).2 = s' at heffect ⊢
  cases heffect with
  | vars main => rfl
  | led => exact (readerStep_ledToggle s).scram
  | rxOff | rxOn => rfl
  | trigFrame => exact absurd rfl htrig
  | autoFrame pktAddr => exact absurd rfl hauto
  | forward forward => exact (readerStep_hbcToSpi forward s).scram
  | psoc =>
    obtain ⟨chip, mem, hread⟩ :=
      flashRead_frame flashAddrPsocConf flashPsocSize flashAddrPsocConf s
    rw [hread]

/-- What a byte of the control port does beside the `switch`. -/
theorem hbcCtrlIrq_scram (b : Byte) (f : Firmware) : (hbcCtrlIrq b f).dev.scram
    = ((acceptedCase b f).elim f.dev fun r => ctrlSwitch r.1 r.2 f.dev).scram := by
  have hnext (s : State) : (ctrlReqNext s).scram = s.scram := rfl
  rw [hbcCtrlIrq_dev, hnext, acceptedCase]
  cases acceptedCmd b f with
  | none =>
    show (ite _ _ _ : State).scram = f.dev.scram
    split
    · obtain ⟨spi, mem, hload⟩ := loadByte_frame b f.dev
      rw [hload]
    · rfl
  | some r =>
    obtain ⟨n, d, hack⟩ := registered_ack r.1 r.2 f.dev
    show (execCmd r.1 r.2 f.dev).scram = _
    rw [execCmd_eq, (readerStep_hbcDataIrq _).1.scram, hack, Option.bind_some]
    cases decodeCmd r.1 with
    | none => rfl
    | some c => rfl

/-- **Any step but a receive interrupt** keeps FIFO and writer, and the scrambler unless it says
so. -/
theorem writerKept_step {y : Sys} {e : Event} (he : e.receives = false) :
    WriterKept y.fw.dev (y.step e).fw.dev ∧
      (y.scrambles e = false → (y.step e).fw.dev.scram = y.fw.dev.scram) := by
  by_cases hpc : y.pc = .psocHang
  · rw [Sys.step_hang hpc]
    exact ⟨.refl _, fun _ => rfl⟩
  · cases e with
    | main =>
      rw [Sys.step_main hpc]
      refine ⟨writerKept_mainStep y.pc y.fw.dev, fun hquiet => ?_⟩
      have hpcs : y.pc ≠ .trigBuild ∧ y.pc ≠ .autoBuild := by
        simpa [Sys.scrambles] using hquiet
      exact mainStep_scram hpcs.1 hpcs.2 y.fw.dev
    | ctrl b =>
      have hcommand := Sys.command_ctrl hpc b
      rw [Sys.step_ctrl hpc]
      refine ⟨?_, fun hquiet => (hbcCtrlIrq_scram b y.fw).trans ?_⟩
      · exact hbcCtrlIrq_keeps (P := WriterKept y.fw.dev)
          (fun s spi mem h => h.trans (.of_rx rfl rfl))
          (fun cmd arg s h => h.trans (writerKept_ctrlSwitch cmd arg s))
          (fun s h => h.trans (.of_reader (readerStep_hbcDataIrq s).1))
          (fun s h => h.trans (.of_rx rfl rfl)) b (.refl _)
      · have hcommands : (y.command (.ctrl b)).any (fun r => r.1.scrambles) = false := hquiet
        rw [hcommand] at hcommands
        cases hcase : acceptedCase b y.fw with
        | none => rfl
        | some r =>
          rw [hcase] at hcommands
          exact ctrlSwitch_scram hcommands r.2 y.fw.dev
    | data =>
      have hdata := (readerStep_hbcDataIrq y.fw.dev).1
      rw [Sys.step_data hpc]
      exact ⟨.of_reader hdata, fun _ => hdata.scram⟩
    | rxData arr | rxReady arr => cases he

end

/-! ## The packets in the ring -/

section
variable [Dram] {c : ℕ} {ps : List (List Word)} {cur : List Word}

omit [Dram] in
/-- Words in the ring stay while the ring does. -/
theorem Holds.kept [Board] {s t : State} {k : ℕ} {ws : List Word} (h : Holds s.mem.cells k ws)
    (hk : 4 ∣ k) (hget : ∀ a, InRing a → t.mem.get a = s.mem.get a) : Holds t.mem.cells k ws := by
  intro i hi
  rw [← h i hi]
  exact hget (ringAddr (k + 4 * i)) (inRing_iff.mpr ⟨_, by omega, rfl⟩)

omit [Dram] in
/-- So do packets. -/
theorem HoldsPackets.kept [Board] {s t : State} {k : ℕ} (h : HoldsPackets s.mem.cells k ps)
    (hk : 4 ∣ k) (hget : ∀ a, InRing a → t.mem.get a = s.mem.get a) :
    HoldsPackets t.mem.cells k ps := by
  induction ps generalizing k with
  | nil => trivial
  | cons p ps ih => exact ⟨h.1.kept hk hget, ih h.2 (Nat.dvd_add hk (four_dvd_packetBytes p))⟩

/-- **The packets stay.** A step without receive interrupt of a host that loads to the transmit
half leaves every packet in the ring, and the one in progress unless the scrambler is used. -/
theorem RingHolds.beside [HostProtocol] {y : Sys} {e : Event} (h : RingHolds c ps cur y.fw.dev)
    (he : e.receives = false) (hlow : LoadsLow y e) (hscram : cur = [] ∨ y.scrambles e = false) :
    RingHolds c ps cur (y.step e).fw.dev := by
  obtain ⟨hwriter, hkept⟩ := writerKept_step (y := y) he
  have hget (a : Word) (ha : InRing a) := hlow.get he ha
  have hflags := (confined_step (y := y) he).flags
  refine ⟨h.aligned, ?_, hwriter.rxFifo.trans h.rxFifo, ?_, ?_, h.packets.kept h.aligned hget,
    h.opened.kept h.four_dvd_end hget, h.nonempty, h.fits⟩
  · rw [Mem.writeWraps, hflags]
    exact h.flags
  · exact writerVars_of_eq h.writer hwriter.wrBufAddr hwriter.wrBytes hwriter.wrPacketAddr
      hwriter.rxState
  · cases hscram with
    | inl hnone =>
      rw [hnone]
      rfl
    | inr hquiet =>
      rw [hkept hquiet]
      exact h.scram

end

end HbcMac

import HbcMac.DataDrain
import HbcMac.LoadLeak
import HbcMac.RxForward

/-!
# Forwards in front of a dump

Both kinds of dump go through one branch, and it moves `dump_addr` on for either. So a packet that
is forwarded between `CMD_MEM_RD_ADDR` and `CMD_MEM_DUMP` displaces the dump by the whole words
of its own.
-/

namespace HbcMac

open LittleEndian

/-! ## Dumps of memory -/

section
variable [Board] [HostProtocol]

/-- What the dump branch writes for a `CMD_MEM_DUMP`. -/
theorem dumpedBytes_memDump {s : State} (hidle : spiPending s = 0) (n : Word) :
    dumpedBytes (execCmd (HostProtocol.code .memDump) n s)
      = (List.range n.toNat).map (s.mem.byte s.spi.dumpAddr) := by
  have hcase : decodeCmd (HostProtocol.code .memDump) = some .memDump := decodeCmd_code _
  have hpacket : decodeCmd (HostProtocol.code .memDump) ≠ some .hbcTxPacket := by
    rw [hcase]
    nofun
  have hstarts := execCmd_starts n s hpacket
  have hcells : (execCmd (HostProtocol.code .memDump) n s).mem.cells = s.mem.cells :=
    (loader_execCmd .memDump n s).2.cells
  rw [hstarts.dumpedBytes hidle, commandMsg, hcase, if_pos rfl, Option.elim_some, Dump.image_mem,
    Mem.byte_congr hcells]

/-! ## Between address and dump -/

/-- What may happen between `CMD_MEM_RD_ADDR` and `CMD_MEM_DUMP`: a packet arrives, or the oldest
one is forwarded. -/
inductive Between
  | rxData (arr : List (List Word))
  | rxReady (arr : List (List Word))
  /-- `hbc_to_spi(1)`, and the host takes what is announced. -/
  | forward

namespace Between

/-- What it does to the device. -/
def step (s : State) : Between → State
  | rxData arr => rxInterrupt rxDataIntFunc arr s
  | rxReady arr => rxInterrupt rxReadyIntFunc arr s
  | forward => drained (hbcToSpi true s)

/-- The whole words of the dump of a forwarded packet. -/
def words (s : State) : Between → ℕ
  | forward => if forwards s then
      ((rxPacketLength (rxPacketReady s).2).toNat + hbcHeaderSize + rxPad) / 4
    else 0
  | _ => 0

end Between

/-- The state in which the dump is asked for. -/
def beforeDump (a : Word) (between : List Between) (s : State) : State :=
  between.foldl Between.step (drained (execCmd (HostProtocol.code .memRdAddr) a s))

/-- The words forwarded on the way there. -/
def forwardedWords : List Between → State → ℕ
  | [], _ => 0
  | e :: between, s => e.words s + forwardedWords between (e.step s)

/-- How many words behind its address a dump asked for after `between` starts. -/
def displacement (a : Word) (between : List Between) (s : State) : ℕ :=
  forwardedWords between (drained (execCmd (HostProtocol.code .memRdAddr) a s))

/-! ## Where the dump starts -/

/-- The port is idle and `dump_addr` is `w` words behind `a`. -/
def DumpsFrom (a : Word) (w : ℕ) (s : State) : Prop :=
  spiPending s = 0 ∧ s.spi.dumpAddr = txAddr a w

/-- A round of the forwarder does not set `dump_addr`. -/
theorem dumpAddr_hbcToSpi (forward : Bool) (s : State) :
    (hbcToSpi forward s).spi.dumpAddr = s.spi.dumpAddr := by
  refine hbcToSpi_keeps (P := fun t => t.spi.dumpAddr = s.spi.dumpAddr) forward rfl ?_ ?_ ?_
  · intro t ht
    rw [(quiet_rxPacketNext t).spi, ht]
  · intro t ht
    rw [(ledToggle_kept t).2.dumpAddr, ht]
  · intro t ht
    rw [forwardPacket_eq]
    exact ht

omit [Board] [HostProtocol] in
/-- Words behind words. -/
theorem txAddr_add (a : Word) (v w : ℕ) : txAddr (txAddr a v) w = txAddr a (v + w) := by
  rw [txAddr, txAddr, txAddr, BitVec.add_assoc, ← BitVec.ofNat_add, ← Nat.mul_add]

/-- A forward moves `dump_addr` by the words of its dump. -/
theorem DumpsFrom.forward {a : Word} {w : ℕ} {s : State} (h : DumpsFrom a w s) :
    DumpsFrom a (w + Between.forward.words s) (Between.forward.step s) := by
  obtain ⟨hidle, haddr⟩ := h
  refine ⟨spiPending_drained _, ?_⟩
  have hkept := dumpAddr_hbcToSpi true s
  show (drained (hbcToSpi true s)).spi.dumpAddr = txAddr a (w + ite _ _ _)
  by_cases hforwards : forwards s = true
  · have hstarts := hbcToSpi_starts hforwards
    obtain ⟨-, hidx, -⟩ := hstarts.dump _ rfl
    have hbytes := hstarts.dumpingMem
    have hindexed : DumpIndexed (hbcToSpi true s) := fun _ => by rw [hidx]; decide
    have hpos : (hbcToSpi true s).spi.dumpingMem ≠ 0 := by
      rw [hbytes]
      exact Nat.succ_ne_zero _
    rw [if_pos hforwards, drained_dumpAddr hindexed, dumpEnd, if_neg hpos, hkept, haddr, hidx,
      hbytes, txAddr_add, Nat.zero_add]
    rfl
  · have hport : PortKept s (hbcToSpi true s) :=
      portKept_hbcToSpi (.inr (Bool.eq_false_iff.mpr hforwards))
    rw [if_neg hforwards, drained_idle ((spiPending_kept hport).trans hidle), hkept]
    exact haddr

/-- A reception leaves the place, a forwarded packet moves it by its words. -/
theorem DumpsFrom.step {a : Word} {w : ℕ} {s : State} (h : DumpsFrom a w s) (e : Between) :
    DumpsFrom a (w + e.words s) (e.step s) := by
  cases e with
  | rxData arr =>
    have hspi := (writerStep_rxData s arr).spi
    rw [DumpsFrom, spiPending, Between.step, hspi]
    exact h
  | rxReady arr =>
    have hspi := (writerStep_rxReady s arr).spi
    rw [DumpsFrom, spiPending, Between.step, hspi]
    exact h
  | forward => exact h.forward

/-- The displacements add up. -/
theorem DumpsFrom.run {a : Word} {w : ℕ} (between : List Between) {s : State}
    (h : DumpsFrom a w s) :
    DumpsFrom a (w + forwardedWords between s) (between.foldl Between.step s) := by
  induction between generalizing w s with
  | nil => exact h
  | cons e between ih =>
    rw [forwardedWords, ← Nat.add_assoc]
    exact ih (h.step e)

/-- From `CMD_MEM_RD_ADDR` on. -/
theorem dumpsFrom_beforeDump {s : State} (hidle : spiPending s = 0) (a : Word)
    (between : List Between) :
    DumpsFrom a (displacement a between s) (beforeDump a between s) := by
  have hpacket : Cmd.memRdAddr ≠ .hbcTxPacket := by decide
  have hspi := execCmd_spi hpacket a s
  have hzero : (execCmd (HostProtocol.code .memRdAddr) a s).spi.dumpingMem = 0 := by
    rw [hspi]
    rw [spiPending] at hidle
    show s.spi.dumpingMem = 0
    omega
  have hstart : DumpsFrom a 0 (drained (execCmd (HostProtocol.code .memRdAddr) a s)) := by
    refine ⟨spiPending_drained _, ?_⟩
    rw [drained_dumpAddr (fun hpos => absurd hzero hpos), dumpEnd, if_pos hzero, hspi, txAddr_zero]
    rfl
  have hrun := hstart.run between
  rw [Nat.zero_add] at hrun
  exact hrun

/-- **Displaced dumps.** After any packets received and forwarded in between, `CMD_MEM_DUMP` sends
the memory from the address given before exactly if the words as far behind that address as the
forwarded packets were long are the same. -/
theorem dump_undisplaced_iff {s : State} (hidle : spiPending s = 0) (a n : Word)
    (between : List Between) :
    let t := beforeDump a between s
    dumpedBytes (execCmd (HostProtocol.code .memDump) n t)
        = (List.range n.toNat).map (t.mem.byte a) ↔
      ∀ i < n.toNat, t.mem.byte (txAddr a (displacement a between s)) i = t.mem.byte a i := by
  intro t
  obtain ⟨hquiet, haddr⟩ := dumpsFrom_beforeDump hidle a between
  rw [dumpedBytes_memDump hquiet, haddr, List.map_inj_left]
  simp only [List.mem_range, t]

end

/-- Memory with a number in each of its first words, and a packet without payload. -/
def countedWords : State := { bootState with
  mem.cells := fun a => if a = 0 then 1 else if a = 4 then 2 else if a = 8 then 3 else 0 }

/-- Two words further on memory is as empty as at 0x100. -/
theorem dump_undisplaced_empty :
    letI := plainDram
    letI := plainProtocol
    let t := beforeDump 0x100 [.rxReady [[emptyHeader]], .forward] countedWords
    dumpedBytes (execCmd (HostProtocol.code .memDump) 8 t)
      = (List.range 8).map (t.mem.byte 0x100) := by
  let := plainDram
  let := plainProtocol
  exact (@dump_undisplaced_iff plainDram.toBoard plainProtocol countedWords rfl 0x100 8
    [.rxReady [[emptyHeader]], .forward]).mpr (by decide +kernel)

/-- Behind the forward of an empty packet the dump of the word at 0 sends the word at 8. -/
theorem dump_displaced :
    letI := plainDram
    letI := plainProtocol
    let t := beforeDump 0 [.rxReady [[emptyHeader]], .forward] countedWords
    dumpedBytes (execCmd (HostProtocol.code .memDump) 4 t) = [3, 0, 0, 0] ∧
      (List.range 4).map (t.mem.byte 0) = [1, 0, 0, 0] := by
  decide +kernel

end HbcMac

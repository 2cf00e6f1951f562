import HbcMac.Loads
import HbcMac.Loopback
import HbcMac.TxBuffer

/-!
# One packet through the loader and the sender

The loader counts the payload with the 32-bit argument of the command, the sender with the
8-bit length it reads back from the memory. Both pass over whole words: the loader because it
commits nothing else, the sender because it advances by the quotient of the length.
-/

namespace HbcMac

open LittleEndian

section
variable [Board] [HostProtocol]

/-! ## The auto branch -/

/-- The auto branch of the main loop, from its first statement to its last. -/
def autoBranch (s : State) : State :=
  [Pc.autoLed, .autoRxDisable, .autoBuild, .autoMask, .autoSeed, .autoRxEnable, .autoDone].foldl
    (fun s pc => (mainStep pc s).2) s

/-- A statement with one successor. -/
theorem step_main_at {y : Sys} {pc pc' : Pc} (h : y.pc = pc) (hpc : pc ≠ .psocHang)
    (hnext : ∀ s, (mainStep pc s).1 = pc') :
    (y.step .main).fw.dev = (mainStep pc y.fw.dev).2 ∧ (y.step .main).pc = pc' := by
  rw [Sys.step_main (by rwa [h]), h]
  exact ⟨rfl, hnext _⟩

/-- The main loop on its own goes through these statements. -/
theorem run_autoBranch {y : Sys} (h : y.pc = .autoLed) :
    (Run.run Sys.step y (List.replicate 7 .main)).fw.dev = autoBranch y.fw.dev
      ∧ (Run.run Sys.step y (List.replicate 7 .main)).pc = .rxFlood := by
  obtain ⟨h1, hpc1⟩ := step_main_at h (by decide) fun _ => rfl
  obtain ⟨h2, hpc2⟩ := step_main_at hpc1 (by decide) fun _ => rfl
  obtain ⟨h3, hpc3⟩ := step_main_at hpc2 (by decide) fun _ => rfl
  obtain ⟨h4, hpc4⟩ := step_main_at hpc3 (by decide) fun _ => rfl
  obtain ⟨h5, hpc5⟩ := step_main_at hpc4 (by decide) fun _ => rfl
  obtain ⟨h6, hpc6⟩ := step_main_at hpc5 (by decide) fun _ => rfl
  obtain ⟨h7, hpc7⟩ := step_main_at hpc6 (by decide) fun _ => rfl
  have hrun : Run.run Sys.step y (List.replicate 7 .main) = (((((((y.step .main).step .main).step
      .main).step .main).step .main).step .main).step .main) := by
    simp only [List.replicate, Run.run_cons, Run.run_nil]
  rw [hrun, h7, h6, h5, h4, h3, h2, h1]
  exact ⟨rfl, hpc7⟩

/-- Before the frame: the light and the receiver. -/
theorem autoBranch_before (s : State) : ∃ new toggle,
    (mainStep .autoRxDisable (mainStep .autoLed s).2).2
        = { s with out := s.out ++ new, main.toggle := toggle } ∧ modulated new = [] := by
  have hled : ∃ level, (mainStep .autoLed s).2
      = { s with out := s.out ++ [.gpo .led1Bit level], main.toggle := !s.main.toggle } := by
    show ∃ level, ledToggle s = _
    unfold ledToggle
    dsimp only
    split
    · exact ⟨false, rfl⟩
    · exact ⟨true, rfl⟩
  obtain ⟨level, hled⟩ := hled
  rw [hled]
  simp only [mainStep]
  split
  · exact ⟨[.gpo .led1Bit level, .gpo .hbcRxEnable false], !s.main.toggle, by
      simp only [rxDisable, State.gpoClear, State.emit, List.append_assoc, List.cons_append,
        List.nil_append], rfl⟩
  · exact ⟨[.gpo .led1Bit level], !s.main.toggle, rfl, rfl⟩

/-- Behind the frame: the mask, the seed, the receiver and the count. -/
theorem autoBranch_behind (s : State) : ∃ new,
    (mainStep .autoDone (mainStep .autoRxEnable (mainStep .autoSeed (mainStep .autoMask s).2).2).2).2
      = { s with
          out := s.out ++ new
          main.pktAddr := s.main.pktAddr &&& memTxMask
          main.headerInfo.scramblerSeed := if s.main.headerInfo.scramblerSeed = 0 then 1 else 0
          main.txPending := s.main.txPending - 1 } ∧ modulated new = [] := by
  have hon {t : State} (ht : t.main.loopback = 0) : (mainStep .autoRxEnable t).2 = rxEnable t :=
    if_pos ht
  have hoff {t : State} (ht : t.main.loopback ≠ 0) : (mainStep .autoRxEnable t).2 = t := if_neg ht
  by_cases h : s.main.loopback = 0
  · refine ⟨[.gpo .hbcRxEnable true], ?_, rfl⟩
    rw [hon (t := (mainStep .autoSeed (mainStep .autoMask s).2).2) h]
    rfl
  · refine ⟨[], ?_, rfl⟩
    rw [hoff (t := (mainStep .autoSeed (mainStep .autoMask s).2).2) h, List.append_nil]
    rfl

/-- The frame of the auto branch, and where it leaves `pkt_addr`. -/
theorem autoBranch_frame (s : State) :
    (modulated (autoBranch s).out).drop (modulated s.out).length = headerWord (autoHeader s)
        :: descramble ((autoHeader s).scramblerSeed != 0) 0
          (memReads (payloadWords (autoHeader s).pdsuLength).toNat (autoRead s))
      ∧ (autoBranch s).main.pktAddr = (s.main.pktAddr
        + ((autoHeader s).pdsuLength / 4).setWidth 32 * 4 + 4) &&& memTxMask
      ∧ (autoBranch s).spi = s.spi := by
  obtain ⟨new, toggle, hbefore, hquiet⟩ := autoBranch_before s
  obtain ⟨new', hbehind, hquiet'⟩ := autoBranch_behind (autoBuild
    { s with out := s.out ++ new, main.toggle := toggle })
  obtain ⟨-, hframe, hnext⟩ := autoBuild_frame
    { s with out := s.out ++ new, main.toggle := toggle }
  have hbranch : autoBranch s = (mainStep .autoDone (mainStep .autoRxEnable (mainStep .autoSeed
      (mainStep .autoMask (autoBuild { s with out := s.out ++ new, main.toggle := toggle })).2).2).2).2
        := by
    rw [← hbefore]
    rfl
  have hreads : memReads (payloadWords (autoHeader s).pdsuLength).toNat
      (autoRead { s with out := s.out ++ new, main.toggle := toggle })
        = memReads (payloadWords (autoHeader s).pdsuLength).toNat (autoRead s) := memReads_congr rfl
  have hsame : (modulated (s.out ++ new)).length = (modulated s.out).length := by
    rw [modulated_append, hquiet, List.append_nil]
  rw [hbranch, hbehind]
  refine ⟨?_, ?_, ?_⟩
  · show (modulated ((autoBuild _).out ++ new')).drop _ = _
    rw [modulated_append, hquiet', List.append_nil, ← hsame, ← hreads]
    exact hframe
  · show (autoBuild _).main.pktAddr &&& memTxMask = _
    rw [hnext]
    rfl
  · show (autoBuild _).spi = s.spi
    rw [autoBuild_eq]
    exact (frameStep_sendFrame _).spi

/-! ## A packet loaded -/

/-- `CMD_HBC_TX_PACKET` and the bytes behind it. -/
def txPacketLoaded (n : Word) (p : List Byte) (s : State) : State :=
  loadBytes p (execCmd (HostProtocol.code .hbcTxPacket) n s)

/-- The length word, then the words of the payload. -/
structure PacketLoaded (n : Word) (p : List Byte) (s t : State) : Prop where
  loadAddr : t.spi.loadAddr = txAddr s.spi.loadAddr (p.length / 4 + 1)
  cells : t.mem.cells = replay (store s.mem.cells (s.spi.loadAddr, n))
    (wordLog (txAddr s.spi.loadAddr 1) (loadedWords s.spi.rdData p))
  main : t.main = { s.main with txPending := s.main.txPending + 1 }

/-- What is in memory when the packet has been loaded. -/
theorem packetLoaded (n : Word) (p : List Byte) (s : State) :
    PacketLoaded n p s (txPacketLoaded n p s) := by
  have hopened := execCmd_hbcTxPacket n s
  have hnext : txAddr s.spi.loadAddr 1 = s.spi.loadAddr + 4 := rfl
  rw [txPacketLoaded, loadBytes_eq p hopened.loadIndex]
  refine ⟨?_, ?_, hopened.main⟩
  · show txAddr (execCmd _ _ s).spi.loadAddr (p.length / 4) = _
    rw [hopened.loadAddr, txAddr_four]
  · show ((execCmd _ _ s).mem.storeAt _ _).cells = _
    rw [Mem.storeAt_cells, hopened.cells, hopened.loadAddr, hopened.rdData, hnext]

/-- No word of a packet of `n` bytes at `a` comes to lie on its length word. -/
def NoOverflow (a n : Word) : Prop :=
  ∀ k < n.toNat / 4, Board.cell a ≠ Board.cell (txAddr a (k + 1))

/-- The sender reads the argument of the command back. -/
theorem length_loaded {n : Word} {p : List Byte} {s : State} (hp : p.length = n.toNat)
    (h : NoOverflow s.spi.loadAddr n) :
    (txPacketLoaded n p s).mem.get s.spi.loadAddr = n := by
  have hfree : ∀ i < (loadedWords s.spi.rdData p).length,
      Board.cell s.spi.loadAddr ≠ Board.cell (txAddr (txAddr s.spi.loadAddr 1) i) := by
    intro i hi
    rw [length_loadedWords, hp] at hi
    have hne := h i hi
    rwa [txAddr_four] at hne
  rw [Mem.get, (packetLoaded n p s).cells, replay_wordLog_of_ne hfree]
  exact store_of_eq s.mem.cells (s.spi.loadAddr, n)

/-! ## Strides -/

/-- Where the two addresses are after the packet. -/
theorem autoBranch_strides {s : State} {n a : Word} {p : List Byte} (hload : s.spi.loadAddr = a)
    (hpkt : s.main.pktAddr = a) (hp : p.length = n.toNat) (h : NoOverflow a n) :
    (autoBranch (txPacketLoaded n p s)).main.pktAddr.toNat
        = (a.toNat + 4 * (n.toNat % 256 / 4) + 4) % halfSize
      ∧ (autoBranch (txPacketLoaded n p s)).spi.loadAddr.toNat
        = (a.toNat + 4 * (n.toNat / 4 + 1)) % 2 ^ 32 := by
  have hloaded := packetLoaded n p s
  have hpktAddr : (txPacketLoaded n p s).main.pktAddr = a := by rw [hloaded.main, ← hpkt]
  have hlength : (autoHeader (txPacketLoaded n p s)).pdsuLength = n.setWidth 8 := by
    show ((txPacketLoaded n p s).mem.get (txPacketLoaded n p s).main.pktAddr).setWidth 8 = _
    rw [hpktAddr, ← hload, length_loaded hp (by rwa [hload])]
  obtain ⟨-, haddr, hspi⟩ := autoBranch_frame (txPacketLoaded n p s)
  have hn := n.isLt
  have hmask : memTxMask.toNat = 2 ^ 24 - 1 := by decide
  constructor
  · rw [haddr, hpktAddr, hlength, BitVec.toNat_and, hmask, Nat.and_two_pow_sub_one_eq_mod,
      BitVec.toNat_add, BitVec.toNat_add, BitVec.toNat_mul, BitVec.toNat_setWidth,
      BitVec.toNat_udiv, BitVec.toNat_setWidth, halfSize_eq]
    show ((a.toNat + n.toNat % 256 / 4 % 2 ^ 32 * 4 % 2 ^ 32) % 2 ^ 32 + 4) % 2 ^ 32 % 2 ^ 24 = _
    omega
  · rw [hspi, hloaded.loadAddr, hload, hp, txAddr, BitVec.toNat_add, BitVec.toNat_ofNat,
      Nat.add_mod_mod]

/-- For every argument of `CMD_HBC_TX_PACKET`, the sender is back at the address of the loader,
counted in the transmit half, exactly for the lengths an 8-bit field can hold (and those that
agree with one of them in the lower 24 bits). -/
theorem strides_agree_iff {s : State} {n a : Word} {p : List Byte} (hload : s.spi.loadAddr = a)
    (hpkt : s.main.pktAddr = a) (hp : p.length = n.toNat) (hover : NoOverflow a n) :
    ((autoBranch (txPacketLoaded n p s)).main.pktAddr.toNat % halfSize
        = (autoBranch (txPacketLoaded n p s)).spi.loadAddr.toNat % halfSize) ↔
      n.toNat % 2 ^ 24 < 256 := by
  obtain ⟨hsender, hloader⟩ := autoBranch_strides hload hpkt hp hover
  have hn := n.isLt
  rw [hsender, hloader, halfSize_eq]
  omega

end

section
variable [Dram] [HostProtocol]

omit [HostProtocol] in
/-- A packet inside the memory. -/
theorem noOverflow_of_mem {a n : Word} (ha : 4 ∣ a.toNat)
    (hfit : a.toNat + 4 + n.toNat ≤ memSize.toNat) : NoOverflow a n := by
  intro k hk
  have hne := cell_txAddr_ne_of_mem ha (Nat.succ_pos k) (by omega)
  rwa [txAddr_zero] at hne

end

/-- A packet of 255 bytes. -/
theorem strides_agree_longest :
    letI := plainDram
    letI := plainProtocol
    ((autoBranch (txPacketLoaded 255 (List.replicate 255 0) bootState)).main.pktAddr.toNat % halfSize
        = (autoBranch (txPacketLoaded 255 (List.replicate 255 0) bootState)).spi.loadAddr.toNat
          % halfSize) ↔ (255 : Word).toNat % 2 ^ 24 < 256 :=
  @strides_agree_iff plainDram.toBoard plainProtocol bootState 255 0 (List.replicate 255 0) rfl rfl
    List.length_replicate (@noOverflow_of_mem plainDram 0 255 (by decide) (by decide))

/-- A packet of 256 bytes, sent as one of length zero: the next length is looked for in its
payload. -/
theorem strides_apart :
    letI := plainDram
    letI := plainProtocol
    (List.replicate 256 (0 : Byte)).length = (256 : Word).toNat ∧ NoOverflow 0 256
      ∧ (autoBranch (txPacketLoaded 256 (List.replicate 256 0) bootState)).main.pktAddr.toNat
          % halfSize
        ≠ (autoBranch (txPacketLoaded 256 (List.replicate 256 0) bootState)).spi.loadAddr.toNat
          % halfSize := by
  let := plainDram
  let := plainProtocol
  have hover : NoOverflow 0 256 := noOverflow_of_mem (by decide) (by decide)
  obtain ⟨hsender, hloader⟩ := autoBranch_strides (s := bootState) (a := 0)
    (p := List.replicate 256 0) rfl rfl List.length_replicate hover
  refine ⟨List.length_replicate, hover, ?_⟩
  rw [hsender, hloader]
  decide

/-! ## The bytes sent -/

section
variable [Dram] [HostProtocol]

/-- The words the sender finds behind the length word: those of the payload, and for a partial
word what the memory held before. -/
def queuedWords (p : List Byte) (s : State) : List Word :=
  wordsOf p ++ if 4 ∣ p.length then [] else [s.mem.get (txAddr s.spi.loadAddr (p.length / 4 + 1))]

omit [HostProtocol] in
/-- A frame carries the last bytes in a whole word. -/
theorem length_queuedWords (p : List Byte) (s : State) :
    (queuedWords p s).length = (p.length + 3) / 4 := by
  rw [queuedWords, List.length_append, length_wordsOf]
  split
  · rw [List.length_nil]
    omega
  · rw [List.length_singleton]
    omega

/-- The memory behind the length word after the load. -/
theorem loaded_queuedWords {s : State} {p : List Byte} (n : Word)
    (ha : 4 ∣ s.spi.loadAddr.toNat) (hfit : s.spi.loadAddr.toNat + 4 + p.length ≤ halfSize)
    (hrd : s.spi.rdData = 0) (i : ℕ) (hi : i < (queuedWords p s).length) :
    (txPacketLoaded n p s).mem.cells (Board.cell (txAddr s.spi.loadAddr (1 + i)))
      = (queuedWords p s)[i] := by
  have hlen := length_queuedWords p s
  have hmem := memSize_toNat
  rw [halfSize_eq] at hfit hmem
  have hnext : (txAddr s.spi.loadAddr 1).toNat = s.spi.loadAddr.toNat + 4 * 1 :=
    txAddr_toNat (by omega)
  rw [(packetLoaded n p s).cells, hrd, loadedWords_zero]
  by_cases hword : i < (wordsOf p).length
  · have hwords := length_wordsOf p
    have haddr : txAddr s.spi.loadAddr (1 + i) = txAddr (txAddr s.spi.loadAddr 1) i := by
      rw [Nat.add_comm, txAddr_four]
      rfl
    rw [haddr, replay_wordLog_getElem (by omega) (by omega) hword]
    exact (List.getElem_append_left hword).symm
  · -- the partial word, which the loader does not write
    have hwords := length_wordsOf p
    have hpartial : ¬ 4 ∣ p.length := by omega
    have hlast : i = p.length / 4 := by omega
    have hfree : ∀ k < (wordsOf p).length, Board.cell (txAddr s.spi.loadAddr (1 + i))
        ≠ Board.cell (txAddr (txAddr s.spi.loadAddr 1) k) := by
      intro k hk
      have hne : Board.cell (txAddr s.spi.loadAddr (k + 1))
          ≠ Board.cell (txAddr s.spi.loadAddr (1 + i)) :=
        cell_txAddr_ne_of_mem ha (by omega) (by omega)
      rw [txAddr_four] at hne
      exact hne.symm
    have hlength : Board.cell (txAddr s.spi.loadAddr (1 + i)) ≠ Board.cell s.spi.loadAddr := by
      have hne : Board.cell (txAddr s.spi.loadAddr 0)
          ≠ Board.cell (txAddr s.spi.loadAddr (1 + i)) :=
        cell_txAddr_ne_of_mem ha (by omega) (by omega)
      rw [txAddr_zero] at hne
      exact hne.symm
    rw [replay_wordLog_of_ne hfree, store_of_ne hlength]
    simp only [queuedWords, if_neg hpartial]
    rw [List.getElem_append_right (by omega), List.getElem_singleton, hlast, Nat.add_comm]
    rfl

/-- For every payload of at most 255 bytes and every content of the memory: the auto branch sends
the words of the payload, rounded up; the bytes of a last partial word are those the memory held,
since only whole words are written. -/
theorem queued_packet_sent {s : State} {p : List Byte} (hp : p.length ≤ 255)
    (hpkt : s.main.pktAddr = s.spi.loadAddr) (ha : 4 ∣ s.spi.loadAddr.toNat)
    (hfit : s.spi.loadAddr.toNat + 4 + p.length ≤ halfSize) (hrd : s.spi.rdData = 0) :
    let t := txPacketLoaded (BitVec.ofNat 32 p.length) p s
    ∃ ws, (modulated (autoBranch t).out).drop (modulated t.out).length
          = headerWord (autoHeader t) :: descramble ((autoHeader t).scramblerSeed != 0) 0 ws
      ∧ (autoHeader t).pdsuLength.toNat = p.length
      ∧ ws.length = (p.length + 3) / 4
      ∧ (∀ i < 4 * (p.length / 4), (ws.flatMap bytes)[i]? = p[i]?)
      ∧ (¬ 4 ∣ p.length →
        ws.getLast? = some (s.mem.get (txAddr s.spi.loadAddr (p.length / 4 + 1)))) := by
  intro t
  have hqueued := length_queuedWords p s
  have hhalf := halfSize_eq
  have hmem := memSize_toNat
  have hn : (BitVec.ofNat 32 p.length).toNat = p.length := by
    rw [BitVec.toNat_ofNat, Nat.mod_eq_of_lt (by omega)]
  have hpktAddr : t.main.pktAddr = s.spi.loadAddr := by
    rw [(packetLoaded _ p s).main, ← hpkt]
  have hlength : (autoHeader t).pdsuLength.toNat = p.length := by
    show ((t.mem.get t.main.pktAddr).setWidth 8).toNat = p.length
    rw [hpktAddr, length_loaded hn.symm (noOverflow_of_mem ha (by rw [hn]; omega)),
      BitVec.toNat_setWidth, hn]
    omega
  have hreads : memReads (payloadWords (autoHeader t).pdsuLength).toNat (autoRead t)
      = queuedWords p s := by
    rw [payloadWords_toNat, hlength, ← hqueued]
    refine memReads_txAddr (j := 1) s.spi.loadAddr (queuedWords p s) (fun i hi => ?_) (fun hne => ?_)
      (by omega)
    · exact loaded_queuedWords _ ha hfit hrd i hi
    · have hpos := List.length_pos_of_ne_nil hne
      show advance t.mem.readWraps t.main.pktAddr = txAddr s.spi.loadAddr 1
      rw [hpktAddr]
      exact advance_of_lt _ (by omega)
  obtain ⟨hframe, -, -⟩ := autoBranch_frame t
  rw [hreads] at hframe
  refine ⟨queuedWords p s, hframe, hlength, hqueued, fun i hi => ?_, fun hpartial => ?_⟩
  · have hbytes := wordsOf_bytes p
    have hin : i < ((wordsOf p).flatMap bytes).length := by
      rw [hbytes, List.length_take]
      omega
    rw [queuedWords, List.flatMap_append, List.getElem?_append_left hin, hbytes,
      List.getElem?_take_of_lt hi]
  · rw [queuedWords, if_neg hpartial, List.getLast?_concat]

end

/-- Eight bytes through a memory of ones. -/
theorem queued_packet_sent_whole :
    letI := plainDram
    letI := plainProtocol
    let s : State := { bootState with mem.cells := fun _ => 0xFFFFFFFF }
    let p : List Byte := [1, 2, 3, 4, 5, 6, 7, 8]
    let t := txPacketLoaded (BitVec.ofNat 32 p.length) p s
    ∃ ws, (modulated (autoBranch t).out).drop (modulated t.out).length
          = headerWord (autoHeader t) :: descramble ((autoHeader t).scramblerSeed != 0) 0 ws
      ∧ (autoHeader t).pdsuLength.toNat = p.length
      ∧ ws.length = (p.length + 3) / 4
      ∧ (∀ i < 4 * (p.length / 4), (ws.flatMap bytes)[i]? = p[i]?)
      ∧ (¬ 4 ∣ p.length →
        ws.getLast? = some (s.mem.get (txAddr s.spi.loadAddr (p.length / 4 + 1)))) :=
  @queued_packet_sent plainDram plainProtocol { bootState with mem.cells := fun _ => 0xFFFFFFFF }
    [1, 2, 3, 4, 5, 6, 7, 8] (by decide) rfl (by decide) (by decide) rfl

/-- A packet of one byte through a memory of ones: the word sent is the one the memory held. -/
theorem queued_byte_lost :
    letI := plainDram
    letI := plainProtocol
    let s : State := { bootState with mem.cells := fun _ => 0xFFFFFFFF }
    let t := txPacketLoaded 1 [0x5A] s
    (modulated (autoBranch t).out).drop (modulated t.out).length
      = [headerWord (autoHeader t), 0xFFFFFFFF] := by
  let := plainDram
  let := plainProtocol
  intro s t
  have hwords : descramble ((autoHeader t).scramblerSeed != 0) 0
      (memReads (payloadWords (autoHeader t).pdsuLength).toNat (autoRead t)) = [0xFFFFFFFF] := by
    decide +kernel
  rw [(autoBranch_frame t).1, hwords]

end HbcMac

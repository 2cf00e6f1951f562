import HbcMac.TxLoader

/-!
# The transmit buffer end to end

The main loop reads the packets back from where the loader has put them, as long as the
loader stays in the transmit half: `pkt_addr` wraps there, `load_addr` does not.
-/

namespace HbcMac

/-! ## Reading a packet back -/

theorem advance_of_lt {p : Word} (wrap : Bool) (h : p.toNat + 4 < halfSize) :
    advance wrap p = p + 4 := by
  rw [halfSize_eq] at h
  cases wrap with
  | false => rfl
  | true =>
    apply BitVec.eq_of_toNat_eq
    rw [advance, if_pos rfl, BitVec.toNat_ofNat, BitVec.toNat_add, halfSize_eq,
      Nat.div_eq_of_lt (by omega), Nat.mod_eq_of_lt h, Nat.zero_mul, Nat.zero_add]
    rfl

/-- Behind a packet that fits the transmit half `pkt_addr &= MEM_TX_MASK` makes a difference
only at its very end. -/
theorem txAddr_mask {base : Word} {j : ℕ} (h : base.toNat + 4 * j < halfSize) :
    txAddr base j &&& memTxMask = txAddr base j := by
  rw [halfSize_eq] at h
  have hnat : (txAddr base j).toNat = base.toNat + 4 * j := txAddr_toNat (by omega)
  apply BitVec.eq_of_toNat_eq
  have hmask : memTxMask.toNat = 2 ^ 24 - 1 := by decide
  rw [BitVec.toNat_and, hmask, Nat.and_two_pow_sub_one_eq_mod, hnat, Nat.mod_eq_of_lt (by omega)]

section
variable [Board]

/-- Successive reads of the words stored from word `j` on. -/
theorem memReads_txAddr (base : Word) (ws : List Word) {j : ℕ} {s : State}
    (hcells : ∀ i (h : i < ws.length), s.mem.cells (Board.cell (txAddr base (j + i))) = ws[i])
    (hp : ws ≠ [] → s.mem.rdP = txAddr base j)
    (hfit : base.toNat + 4 * (j + ws.length) ≤ halfSize) : memReads ws.length s = ws := by
  induction ws generalizing j s with
  | nil => rfl
  | cons w ws ih =>
    rw [List.length_cons] at hfit
    have hfirst : (memRead s).1 = w := by
      have h0 := hcells 0 (Nat.succ_pos _)
      rw [Nat.add_zero, List.getElem_cons_zero] at h0
      rw [← h0, ← hp (List.cons_ne_nil w ws)]
      rfl
    have hrest : memReads ws.length (memRead s).2 = ws := by
      refine ih (j := j + 1) (fun i h => ?_) (fun hne => ?_) (by omega)
      · have hi := hcells (i + 1) (Nat.succ_lt_succ h)
        rw [List.getElem_cons_succ] at hi
        rw [← hi, Nat.add_assoc, Nat.add_comm 1 i]
        rfl
      · have hpos : 0 < ws.length := List.length_pos_of_ne_nil hne
        have hnat : (txAddr base j).toNat = base.toNat + 4 * j := by
          rw [halfSize_eq] at hfit
          exact txAddr_toNat (by omega)
        show advance s.mem.readWraps s.mem.rdP = txAddr base (j + 1)
        rw [hp (List.cons_ne_nil w ws), advance_of_lt _ (by rw [hnat]; omega), txAddr_succ]
    rw [List.length_cons, memReads, hfirst, hrest]

/-- A frame carries a payload: its length, and its words under the keystream of its seed. -/
structure Carries (fr : Frame) (p : List Byte) : Prop where
  auto : fr.auto = true
  length : fr.headerInfo.pdsuLength.toNat = p.length
  words : fr.words = headerWord fr.headerInfo
    :: descramble (fr.headerInfo.scramblerSeed != 0) 0 (wordsOf p)

omit [Board] in
/-- A length word and the payload. -/
theorem length_record (p : List Byte) : (record p).length = p.length / 4 + 1 := by
  rw [record, List.length_cons, length_wordsOf]

/-- The header and the words a round of the auto branch hands to the modulator. -/
theorem autoBuild_frame (s : State) :
    (autoBuild s).main.headerInfo
        = { autoHeader s with crc8 := HbcMac.crc8 (headerBits (autoHeader s)) } ∧
      (modulated (autoBuild s).out).drop (modulated s.out).length = headerWord (autoHeader s)
        :: descramble ((autoHeader s).scramblerSeed != 0) 0
          (memReads (payloadWords (autoHeader s).pdsuLength).toNat (autoRead s)) ∧
      (autoBuild s).main.pktAddr
        = s.main.pktAddr + ((autoHeader s).pdsuLength / 4).setWidth 32 * 4 + 4 := by
  obtain ⟨new, f, heq, hmod, -⟩ := sendFrame_eq (autoRead s)
  rw [autoBuild_eq, heq]
  refine ⟨rfl, ?_, rfl⟩
  show (modulated (s.out ++ new)).drop _ = _
  rw [modulated_append, List.drop_left, hmod]
  rfl

omit [Board] in
/-- A length in whole words: the number of words the payload function reads and returns. -/
theorem payloadWords_of_dvd (len : Byte) (h : 4 ∣ len.toNat) :
    payloadWords len = len / 4 ∧ (len / 4).toNat = len.toNat / 4 := by
  have hmod : len % 4 = 0 := by
    apply BitVec.eq_of_toNat_eq
    rw [BitVec.toNat_umod]
    exact Nat.mod_eq_zero_of_dvd h
  refine ⟨?_, BitVec.toNat_udiv⟩
  rw [payloadWords, if_neg (not_not.mpr hmod)]

/-- **One round of the auto branch** on a packet stored at word `j`. -/
theorem autoBuild_carries {base : Word} {p : List Byte} {j : ℕ} {s : State} (hsend : Sendable p)
    (hcells : ∀ i (h : i < (record p).length),
      s.mem.cells (Board.cell (txAddr base (j + i))) = (record p)[i])
    (haddr : s.main.pktAddr = txAddr base j)
    (hfit : base.toNat + 4 * (j + (record p).length) ≤ halfSize) :
    Carries ⟨true, (autoBuild s).main.headerInfo,
        (modulated (autoBuild s).out).drop (modulated s.out).length⟩ p ∧
      (autoBuild s).main.pktAddr = txAddr base (j + (record p).length) := by
  obtain ⟨hwhole, hle⟩ := hsend
  obtain ⟨hheader, hwords, hnext⟩ := autoBuild_frame s
  -- the length word of the record
  have hfirst : s.mem.get s.main.pktAddr = BitVec.ofNat 32 p.length := by
    rw [haddr]
    exact hcells 0 (Nat.succ_pos _)
  have hlen : (autoHeader s).pdsuLength.toNat = p.length := by
    show ((s.mem.get s.main.pktAddr).setWidth 8).toNat = p.length
    rw [hfirst, BitVec.toNat_setWidth, BitVec.toNat_ofNat]
    omega
  obtain ⟨hcount, hquot⟩ := payloadWords_of_dvd (autoHeader s).pdsuLength (by rwa [hlen])
  have hn : (payloadWords (autoHeader s).pdsuLength).toNat = (wordsOf p).length := by
    rw [hcount, hquot, hlen, length_wordsOf]
  have hreads : memReads (payloadWords (autoHeader s).pdsuLength).toNat (autoRead s) = wordsOf p := by
    rw [length_record] at hfit
    rw [hn]
    refine memReads_txAddr (j := j + 1) base (wordsOf p) (fun i h => ?_) (fun hne => ?_) ?_
    · have hi := hcells (i + 1) (Nat.succ_lt_succ h)
      rw [Nat.add_assoc, Nat.add_comm 1 i]
      exact hi
    · have hpos : 0 < (wordsOf p).length := List.length_pos_of_ne_nil hne
      rw [length_wordsOf] at hpos
      -- the reads stay inside the half, where the pointer does not wrap
      have hnat : (txAddr base j).toNat = base.toNat + 4 * j := by
        rw [halfSize_eq] at hfit
        exact txAddr_toNat (by omega)
      show advance s.mem.readWraps s.main.pktAddr = txAddr base (j + 1)
      rw [haddr, advance_of_lt _ (by rw [hnat]; omega), txAddr_succ]
    · rw [length_wordsOf]
      omega
  rw [hreads] at hwords
  refine ⟨⟨rfl, ?_, ?_⟩, ?_⟩
  · show (autoBuild s).main.headerInfo.pdsuLength.toNat = p.length
    rw [hheader]
    exact hlen
  · show (modulated (autoBuild s).out).drop (modulated s.out).length = _
    rw [hwords, hheader]
    rfl
  · -- length word and payload: the whole record
    have hstep : ((autoHeader s).pdsuLength / 4).setWidth 32 * 4 + 4
        = BitVec.ofNat 32 (4 * (record p).length) := by
      apply BitVec.eq_of_toNat_eq
      rw [BitVec.toNat_add, BitVec.toNat_mul, BitVec.toNat_setWidth, hquot, hlen, length_record,
        BitVec.toNat_ofNat, show (4 : Word).toNat = 4 from rfl]
      omega
    rw [hnext, haddr, BitVec.add_assoc, hstep, txAddr, txAddr, BitVec.add_assoc, ← BitVec.ofNat_add,
      ← Nat.mul_add]

end

/-! ## Runs of the buffer -/

/-- The statements the main loop gets to with neither a triggered frame nor the PSoC flash
requested. -/
def Pc.untriggered : Pc → Bool
  | trigLed | trigRxDisable | trigBuild | trigSeed | trigRxEnable | trigFlood | trigClear
  | psocCall | psocHang => false
  | _ => true

/-- What a run of the buffer consists of: control bytes, main loop steps, data interrupts. -/
def Event.transmits : Event → Bool
  | main | ctrl _ | data => true
  | rxData _ | rxReady _ => false

/-- The bytes on the control port. -/
def ctrlBytes (evs : List Event) : List Byte :=
  evs.filterMap fun e => match e with
    | .ctrl b => some b
    | _ => none

/-- The words in memory before packet `k` of the stream. -/
def txOffset (ps : List (List Byte)) (k : ℕ) : ℕ := ((ps.take k).flatMap record).length

section
variable [Dram] [HostProtocol]

/-- The producer's side, which does not depend on where its addresses lead. -/
structure Producing (base : Word) (log₀ : List (Word × Word)) (ps : List (List Byte))
    (rest : List Byte) (y : Sys) : Prop where
  stream : ∃ done, StreamAt base log₀ ps rest done y.loads y.fw
  account : TxInv y
  sendPacket : y.fw.dev.main.sendPacket = 0
  txFlood : y.fw.dev.main.txFlood = 0
  doPsocFlash : y.fw.dev.main.doPsocFlash = 0
  pc : y.pc.untriggered = true

/-- The consumer's side. -/
structure Consuming (base : Word) (ps : List (List Byte)) (y : Sys) : Prop where
  frames : y.frames.length = y.autoSent + if y.pc.autoBuilt then 1 else 0
  pktAddr : y.fw.dev.main.pktAddr = if y.pc = .autoMask
    then txAddr base (txOffset ps y.frames.length)
    else txAddr base (txOffset ps y.frames.length) &&& memTxMask
  carried : ∀ (k : ℕ) (fr : Frame), y.frames[k]? = some fr → ∃ p, ps[k]? = some p ∧ Carries fr p

omit [Dram] in
theorem untriggered_next [Board] {pc : Pc} {s : State} (hpc : pc.untriggered = true)
    (hsend : s.main.sendPacket = 0) (hflood : s.main.txFlood = 0) (hpsoc : s.main.doPsocFlash = 0) :
    (mainStep pc s).1.untriggered = true := by
  cases pc with
  | sendPacket => simp only [mainStep, hsend]; rfl
  | txFlood => simp only [mainStep, hflood]; rfl
  | psocFlash => simp only [mainStep, hpsoc]; rfl
  | txAuto | pendingMany | pendingOne | loadBusy | rxFlood | rxAuto | dumpBusy =>
    simp only [mainStep]
    split
    · rfl
    · rfl
  | trigLed | trigRxDisable | trigBuild | trigSeed | trigRxEnable | trigFlood | trigClear
  | psocCall | psocHang => cases hpc
  | _ => rfl

omit [Dram] [HostProtocol] in
/-- The bytes an event puts on the control port. -/
theorem ctrlBytes_cons (e : Event) (evs : List Event) :
    ctrlBytes (e :: evs) = ctrlBytes [e] ++ ctrlBytes evs := List.filterMap_append (l := [e])

omit [Dram] [HostProtocol] in
theorem mainAfter_flags [Board] {pc : Pc} (hpc : pc.untriggered = true) (s : State) :
    (mainAfter pc s).sendPacket = s.main.sendPacket ∧
      (mainAfter pc s).txFlood = s.main.txFlood ∧
      (mainAfter pc s).doPsocFlash = s.main.doPsocFlash := by
  cases pc with
  | trigLed | trigRxDisable | trigBuild | trigSeed | trigRxEnable | trigFlood | trigClear
  | psocCall | psocHang => cases hpc
  | _ => exact ⟨rfl, rfl, rfl⟩

section
variable {base : Word} {log₀ : List (Word × Word)} {ps : List (List Byte)} {rest : List Byte}
  {e : Event} {y : Sys}

/-- A byte on the control port takes the stream one byte on. -/
theorem Producing.step (h : Producing base log₀ ps (ctrlBytes [e] ++ rest) y)
    (he : e.transmits = true) (hsend : ∀ p ∈ ps, Sendable p) (hbase : 4 ∣ base.toNat) :
    Producing base log₀ ps rest (y.step e) := by
  have haccount := txInv_step h.account e
  obtain ⟨⟨done, hstream⟩, -, h1, h2, h3, h4⟩ := h
  have hpc : y.pc ≠ .psocHang := fun hpc => by rw [hpc] at h4; cases h4
  cases e with
  | rxData arr => cases he
  | rxReady arr => cases he
  | main =>
    -- the flash image would go over the buffer
    have hcall : y.pc ≠ .psocCall := fun hpc => by rw [hpc] at h4; cases h4
    have hkept := txKept_mainStep y.pc y.fw.dev
    obtain ⟨hsame, hflood, hpsoc⟩ := mainAfter_flags h4 y.fw.dev
    rw [Sys.step_main hpc] at haccount ⊢
    exact ⟨⟨done, hstream.kept rfl hkept (memKept_mainStep hcall _)⟩, haccount,
      (hkept.sendPacket.trans hsame).trans h1, (hkept.txFlood.trans hflood).trans h2,
      (hkept.doPsocFlash.trans hpsoc).trans h3, untriggered_next h4 h1 h2 h3⟩
  | data =>
    have hkept := txKept_hbcDataIrq y.fw.dev
    have hreader := (readerStep_hbcDataIrq y.fw.dev).1
    rw [Sys.step_data hpc] at haccount ⊢
    exact ⟨⟨done, hstream.kept rfl hkept ⟨hreader.cells, hreader.flags, hreader.log⟩⟩, haccount,
      hkept.sendPacket.trans h1, hkept.txFlood.trans h2, hkept.doPsocFlash.trans h3, h4⟩
  | ctrl b =>
    obtain ⟨done', n, hstream', hmain⟩ := hstream.step hsend hbase
    rw [Sys.step_ctrl hpc] at haccount ⊢
    refine ⟨⟨done', hstream'⟩, haccount, ?_, ?_, ?_, h4⟩
    · show (hbcCtrlIrq b y.fw).dev.main.sendPacket = 0
      rw [hmain]
      exact h1
    · show (hbcCtrlIrq b y.fw).dev.main.txFlood = 0
      rw [hmain]
      exact h2
    · show (hbcCtrlIrq b y.fw).dev.main.doPsocFlash = 0
      rw [hmain]
      exact h3

/-! ## The consumer -/

omit [Dram] [HostProtocol] in
/-- Packet `k` in the words of the stream. -/
theorem flatMap_record_split {k : ℕ} {p : List Byte} (hp : ps[k]? = some p) :
    ps.flatMap record = (ps.take k).flatMap record ++ (record p ++ (ps.drop (k + 1)).flatMap record) ∧
      txOffset ps (k + 1) = txOffset ps k + (record p).length := by
  obtain ⟨hk, hget⟩ := List.getElem?_eq_some_iff.mp hp
  have hsplit : ps = ps.take k ++ p :: ps.drop (k + 1) := by
    rw [← hget, List.getElem_cons_drop, List.take_append_drop]
  constructor
  · rw [← List.flatMap_cons, ← List.flatMap_append, ← hsplit]
  · rw [txOffset, txOffset, List.take_add_one, hp, List.flatMap_append, List.length_append]
    congr 2
    exact List.flatMap_singleton record p

/-- A packet that has been loaded is in memory. -/
theorem Producing.stored {k : ℕ} (h : Producing base log₀ ps rest y) (hk : Loaded y.loads k)
    (hfit : base.toNat + 4 * (ps.flatMap record).length ≤ halfSize) :
    ∃ p, ps[k]? = some p ∧ base.toNat + 4 * (txOffset ps k + (record p).length) ≤ halfSize ∧
      ∀ i (hi : i < (record p).length),
        y.fw.dev.mem.cells (Board.cell (txAddr base (txOffset ps k + i))) = (record p)[i] := by
  obtain ⟨done, hstream⟩ := h.stream
  obtain ⟨ws, hwritten, hdone, hws⟩ := hstream.written
  obtain ⟨todo, hps⟩ := hstream.done_first
  have hlt : k < done.length := hstream.loaded_lt hk
  have hp : ps[k]? = some done[k] := by
    rw [← hps, List.getElem?_append_left hlt, List.getElem?_eq_getElem hlt]
  have hpd : done[k]? = some done[k] := List.getElem?_eq_getElem hlt
  obtain ⟨hsplit, -⟩ := flatMap_record_split hpd
  have htake : ps.take k = done.take k := by
    rw [← hps, List.take_append_of_le_length (Nat.le_of_lt hlt)]
  have hoffset : txOffset ps k = ((done.take k).flatMap record).length := by rw [txOffset, htake]
  have hle : txOffset ps k + (record done[k]).length ≤ (done.flatMap record).length := by
    rw [hsplit, hoffset, List.length_append, List.length_append]
    omega
  have hws_le := hws.length_le
  have hdone_le := hdone.length_le
  refine ⟨done[k], hp, by omega, fun i hi => ?_⟩
  have hidx : txOffset ps k + i < ws.length := by omega
  rw [hwritten.cells (by omega) _ hidx]
  -- the words written start with those of the packets loaded
  have hval : (done.flatMap record)[txOffset ps k + i]? = some (record done[k])[i] := by
    rw [hsplit, hoffset, List.getElem?_append_right (Nat.le_add_right _ _),
      Nat.add_sub_cancel_left, List.getElem?_append_left hi, List.getElem?_eq_getElem hi]
  have hlow : txOffset ps k + i < (done.flatMap record).length := by omega
  obtain ⟨extra, rfl⟩ := hdone
  rw [List.getElem_append_left hlow]
  exact Option.some.inj ((List.getElem?_eq_getElem hlow).symm.trans hval)

omit [HostProtocol] in
theorem Consuming.of_kept {y' : Sys} (h : Consuming base ps y) (hframes : y'.frames = y.frames)
    (hsent : y'.autoSent = y.autoSent) (hbuilt : y'.pc.autoBuilt = y.pc.autoBuilt)
    (hmask : y'.pc = .autoMask ↔ y.pc = .autoMask)
    (haddr : y'.fw.dev.main.pktAddr = y.fw.dev.main.pktAddr) : Consuming base ps y' where
  frames := by rw [hframes, hsent, hbuilt]; exact h.frames
  pktAddr := by
    rw [haddr, hframes, h.pktAddr]
    simp only [hmask]
  carried := by rw [hframes]; exact h.carried

theorem next_autoMask {pc : Pc} {s : State} (h : (mainStep pc s).1 = .autoMask) :
    pc = .autoBuild := by
  cases pc with
  | autoBuild => rfl
  | sendPacket | txFlood | txAuto | pendingMany | pendingOne | loadBusy | rxFlood | rxAuto
  | dumpBusy | psocFlash =>
    simp only [mainStep] at h
    split at h
    · cases h
    · cases h
  | _ => cases h

omit [Dram] [HostProtocol] in
/-- One more frame, for the next packet. -/
theorem carried_snoc [Board] {frames : List Frame} {fr : Frame} {p : List Byte}
    (h : ∀ (k : ℕ) (fr : Frame), frames[k]? = some fr → ∃ p, ps[k]? = some p ∧ Carries fr p)
    (hp : ps[frames.length]? = some p) (hc : Carries fr p) (k : ℕ) (fr' : Frame)
    (hfr : (frames ++ [fr])[k]? = some fr') : ∃ p, ps[k]? = some p ∧ Carries fr' p := by
  by_cases hk : k < frames.length
  · rw [List.getElem?_append_left hk] at hfr
    exact h k fr' hfr
  · rw [List.getElem?_append_right (Nat.le_of_not_lt hk)] at hfr
    obtain ⟨hidx, hget⟩ := List.getElem?_eq_some_iff.mp hfr
    rw [List.length_singleton] at hidx
    obtain rfl : k = frames.length := by omega
    rw [List.getElem_singleton] at hget
    exact ⟨p, hp, hget ▸ hc⟩

omit [Dram] [HostProtocol] in
theorem mainAfter_pktAddr [Board] {pc : Pc} (hbuild : pc ≠ .autoBuild) (s : State) :
    (mainAfter pc s).pktAddr
      = if pc = .autoMask then s.main.pktAddr &&& memTxMask else s.main.pktAddr := by
  cases pc with
  | autoBuild => exact absurd rfl hbuild
  | trigFlood =>
    simp only [mainAfter]
    split
    · rfl
    · rfl
  | _ => rfl

omit [Dram] [HostProtocol] in
theorem framesOf_eq_nil {pc : Pc} (hpc : pc.untriggered = true) (hbuild : pc ≠ .autoBuild)
    (s s' : State) : framesOf pc s s' = [] := by
  cases pc with
  | autoBuild => exact absurd rfl hbuild
  | trigBuild => cases hpc
  | _ => rfl

/-- The step that builds the frame. -/
theorem step_autoBuild (h : y.pc = .autoBuild) : y.step .main = { y with
    fw.dev := autoBuild y.fw.dev
    pc := .autoMask
    frames := y.frames ++ [⟨true, (autoBuild y.fw.dev).main.headerInfo,
      (modulated (autoBuild y.fw.dev).out).drop (modulated y.fw.dev.out).length⟩] } := by
  rw [Sys.step_main (by rw [h]; nofun), h]
  rfl

/-- The loop takes the packets in their order. -/
theorem Consuming.main (h : Consuming base ps y) (hprod : Producing base log₀ ps rest y)
    (hsend : ∀ p ∈ ps, Sendable p)
    (hfit : base.toNat + 4 * (ps.flatMap record).length ≤ halfSize) :
    Consuming base ps (y.step .main) := by
  have hpc : y.pc ≠ .psocHang := fun hpc => by
    have hu := hprod.pc
    rw [hpc] at hu
    cases hu
  by_cases hbuild : y.pc = .autoBuild
  · have hlen : y.frames.length = y.autoSent := by
      have hframes := h.frames
      rwa [hbuild] at hframes
    -- the auto branch was entered for a packet that has been loaded
    obtain ⟨p, hp, hroom, hcells⟩ := hprod.stored (hprod.account.entered (by rw [hbuild]; rfl)) hfit
    rw [← hlen] at hp hroom hcells
    have hlow : base.toNat + 4 * txOffset ps y.frames.length < halfSize := by
      rw [length_record] at hroom
      omega
    have hstart : y.fw.dev.main.pktAddr = txAddr base (txOffset ps y.frames.length) := by
      rw [h.pktAddr, hbuild, if_neg nofun, txAddr_mask hlow]
    obtain ⟨hcarries, hnext⟩ :=
      autoBuild_carries (hsend p (List.mem_of_getElem? hp)) hcells hstart hroom
    rw [step_autoBuild hbuild]
    refine ⟨?_, ?_, carried_snoc h.carried hp hcarries⟩
    · rw [List.length_append, List.length_singleton, hlen]
      rfl
    · rw [if_pos rfl, List.length_append, List.length_singleton, (flatMap_record_split hp).2]
      exact hnext
  · -- no other statement builds a frame of the auto branch, or moves `pkt_addr` for long
    have hsame : y.frames ++ framesOf y.pc y.fw.dev (mainStep y.pc y.fw.dev).2 = y.frames := by
      rw [framesOf_eq_nil hprod.pc hbuild, List.append_nil]
    have hnext : (mainStep y.pc y.fw.dev).1 ≠ .autoMask := fun h' => hbuild (next_autoMask h')
    have hkept := txKept_mainStep y.pc y.fw.dev
    rw [Sys.step_main hpc]
    refine ⟨?_, ?_, ?_⟩
    · rw [hsame, h.frames]
      by_cases hdone : y.pc = .autoDone
      · rw [hdone]
        rfl
      · rw [if_neg hdone, autoBuilt_next hbuild hdone]
    · rw [if_neg hnext, hsame]
      refine hkept.pktAddr.trans ((mainAfter_pktAddr hbuild y.fw.dev).trans ?_)
      rw [h.pktAddr]
      split
      · rfl
      · rfl
    · rw [hsame]
      exact h.carried

/-- One event, as long as the whole stream fits. -/
theorem Consuming.step (h : Consuming base ps y)
    (hprod : Producing base log₀ ps (ctrlBytes [e] ++ rest) y) (he : e.transmits = true)
    (hsend : ∀ p ∈ ps, Sendable p) (hbase : 4 ∣ base.toNat)
    (hfit : base.toNat + 4 * (ps.flatMap record).length ≤ halfSize) :
    Consuming base ps (y.step e) := by
  have hpc : y.pc ≠ .psocHang := fun hpc => by
    have hu := hprod.pc
    rw [hpc] at hu
    cases hu
  cases e with
  | rxData arr => cases he
  | rxReady arr => cases he
  | main => exact h.main hprod hsend hfit
  | data =>
    rw [Sys.step_data hpc]
    exact h.of_kept rfl rfl rfl Iff.rfl (txKept_hbcDataIrq y.fw.dev).pktAddr
  | ctrl b =>
    obtain ⟨done, hstream⟩ := hprod.stream
    obtain ⟨-, n, -, hmain⟩ := hstream.step hsend hbase
    rw [Sys.step_ctrl hpc]
    refine h.of_kept rfl rfl rfl Iff.rfl ?_
    show (hbcCtrlIrq b y.fw).dev.main.pktAddr = y.fw.dev.main.pktAddr
    rw [hmain]

/-! ## The whole run -/

/-- The state before the stream: both addresses at `base`, nothing pending, no word half
loaded, and the main loop about to look for frames to send. -/
structure TxStart (base : Word) (y : Sys) : Prop where
  aligned : 4 ∣ base.toNat
  inside : base.toNat < memRxBuf.toNat
  loadAddr : y.fw.dev.spi.loadAddr = base
  pktAddr : y.fw.dev.main.pktAddr = base
  txAuto : y.fw.dev.main.txAuto ≠ 0
  flags : y.fw.dev.mem.flags = memReadWrap16M ||| memWriteWrap16M
  bytesReq : y.fw.parser.bytesReq = 0
  loadingMem : y.fw.dev.spi.loadingMem = 0
  rdData : y.fw.dev.spi.rdData = 0
  txPending : y.fw.dev.main.txPending = 0
  sendPacket : y.fw.dev.main.sendPacket = 0
  txFlood : y.fw.dev.main.txFlood = 0
  doPsocFlash : y.fw.dev.main.doPsocFlash = 0
  pc : y.pc = .sendPacket
  frames : y.frames = []
  autoSent : y.autoSent = 0
  loads : y.loads = []

/-- What the loader has written since `log₀` lies in the transmit half, and the frames are
those of the packets. -/
structure Faithful (log₀ : List (Word × Word)) (ps : List (List Byte)) (y : Sys) : Prop where
  inside : ∀ w ∈ y.fw.dev.mem.log.drop log₀.length, w.1.toNat < memRxBuf.toNat
  carried : ∀ (k : ℕ) (fr : Frame), y.frames[k]? = some fr → ∃ p, ps[k]? = some p ∧ Carries fr p

/-- At the start nothing has been sent. -/
theorem TxStart.producing (h : TxStart base y) (ps : List (List Byte)) :
    Producing base y.fw.dev.mem.log ps (stream ps) y where
  stream := by
    refine ⟨[], .idle ps rfl rfl (by rw [h.loads]; rfl) h.bytesReq h.loadingMem h.rdData ?_⟩
    refine ⟨?_, ⟨[], (List.append_nil _).symm, rfl⟩, fun _ j hj => absurd hj (Nat.not_lt_zero j)⟩
    rw [h.loadAddr]
    exact (BitVec.add_zero base).symm
  account := by
    refine ⟨Or.inl ⟨h.loads, h.loadingMem⟩, ?_, ?_, ?_, ?_⟩
    · rw [h.autoSent]
      exact Nat.zero_le _
    · rw [h.txPending, Sys.accepted, h.loads, h.autoSent]
      rfl
    · intro hpc
      rw [h.pc] at hpc
      cases hpc
    · intro hpc
      rw [h.pc] at hpc
      cases hpc
  sendPacket := h.sendPacket
  txFlood := h.txFlood
  doPsocFlash := h.doPsocFlash
  pc := by rw [h.pc]; rfl

omit [HostProtocol] in
/-- And nothing taken. -/
theorem TxStart.consuming (h : TxStart base y) (ps : List (List Byte)) : Consuming base ps y where
  frames := by rw [h.frames, h.autoSent, h.pc]; rfl
  pktAddr := by
    have hlow : base.toNat + 4 * 0 < halfSize := h.inside
    have hzero : txAddr base 0 = base := BitVec.add_zero base
    rw [h.pktAddr, h.pc, if_neg nofun, h.frames]
    exact (hzero.symm.trans (txAddr_mask hlow).symm)
  carried := by
    intro k fr hfr
    rw [h.frames] at hfr
    cases hfr

omit [Dram] [HostProtocol] in
/-- The bytes a stream of whole words takes in memory. -/
theorem length_flatMap_record (hsend : ∀ p ∈ ps, Sendable p) :
    4 * (ps.flatMap record).length = (ps.map fun p => 4 + p.length).sum := by
  induction ps with
  | nil => rfl
  | cons p ps ih =>
    have hwhole := (hsend p List.mem_cons_self).1
    rw [List.flatMap_cons, List.length_append, Nat.mul_add, List.map_cons, List.sum_cons,
      ih fun q hq => hsend q (List.mem_cons_of_mem p hq), length_record]
    omega

/-- As long as the whole stream fits, both sides together are faithful. -/
theorem Producing.faithful (h : Producing base log₀ ps rest y) (hc : Consuming base ps y)
    (hfit : base.toNat + 4 * (ps.flatMap record).length ≤ halfSize) : Faithful log₀ ps y where
  inside := by
    obtain ⟨done, hstream⟩ := h.stream
    obtain ⟨ws, hwritten, -, hws⟩ := hstream.written
    obtain ⟨new, hlog, hfst⟩ := hwritten.log
    intro w hw
    rw [hlog, List.drop_left] at hw
    have haddr : w.1 ∈ new.map Prod.fst := List.mem_map_of_mem hw
    rw [hfst, List.mem_map] at haddr
    obtain ⟨j, hj, hwj⟩ := haddr
    have hjlt := List.mem_range.mp hj
    have hle := hws.length_le
    rw [halfSize_eq] at hfit
    rw [← hwj, txAddr_toNat (by omega), memRxBuf_toNat, halfSize_eq]
    omega
  carried := hc.carried

/-- Throughout such a run. -/
theorem always_faithful {evs : List Event} (h : Producing base log₀ ps (ctrlBytes evs ++ rest) y)
    (hc : Consuming base ps y) (he : ∀ e ∈ evs, e.transmits = true)
    (hsend : ∀ p ∈ ps, Sendable p) (hbase : 4 ∣ base.toNat)
    (hfit : base.toNat + 4 * (ps.flatMap record).length ≤ halfSize) :
    Run.Always Sys.step (Faithful log₀ ps) y evs := by
  induction evs generalizing y with
  | nil => exact h.faithful hc hfit
  | cons e evs ih =>
    have hfaithful := h.faithful hc hfit
    rw [ctrlBytes_cons, List.append_assoc] at h
    have hhead := he e List.mem_cons_self
    exact ⟨hfaithful, ih (h.step hhead hsend hbase) (hc.step h hhead hsend hbase hfit)
      fun e' he' => he e' (List.mem_cons_of_mem e he')⟩

/-- The producer over a run. -/
theorem Producing.run {evs : List Event} (h : Producing base log₀ ps (ctrlBytes evs ++ rest) y)
    (he : ∀ e ∈ evs, e.transmits = true) (hsend : ∀ p ∈ ps, Sendable p) (hbase : 4 ∣ base.toNat) :
    Producing base log₀ ps rest (Run.run Sys.step y evs) := by
  induction evs generalizing y with
  | nil => exact h
  | cons e evs ih =>
    rw [ctrlBytes_cons, List.append_assoc] at h
    exact ih (h.step (he e List.mem_cons_self) hsend hbase)
      fun e' he' => he e' (List.mem_cons_of_mem e he')

/-- A stream that does not fit has a word written beyond the transmit half. -/
theorem Producing.fits (h : Producing base log₀ ps [] y) (hbase : 4 ∣ base.toNat)
    (hlow : base.toNat < memRxBuf.toNat)
    (hinside : ∀ w ∈ y.fw.dev.mem.log.drop log₀.length, w.1.toNat < memRxBuf.toNat) :
    base.toNat + 4 * (ps.flatMap record).length ≤ halfSize := by
  obtain ⟨done, hstream⟩ := h.stream
  obtain ⟨new, hlog, hfst⟩ := hstream.finished.log
  rw [hlog, List.drop_left] at hinside
  rw [memRxBuf_toNat, halfSize_eq] at hlow
  rw [halfSize_eq]
  by_contra hlt
  -- the word behind the last one of the half
  have hj : (2 ^ 24 - base.toNat) / 4 < (ps.flatMap record).length := by omega
  have hmem : txAddr base ((2 ^ 24 - base.toNat) / 4) ∈ new.map Prod.fst := by
    rw [hfst]
    exact List.mem_map_of_mem (List.mem_range.mpr hj)
  obtain ⟨w, hw, hwj⟩ := List.mem_map.mp hmem
  have hbad := hinside w hw
  rw [hwj, txAddr_toNat (by omega), memRxBuf_toNat, halfSize_eq] at hbad
  omega

/-- A run that is faithful to the end has kept to its half. -/
theorem TxStart.fits {evs : List Event} (hstart : TxStart base y) (hsend : ∀ p ∈ ps, Sendable p)
    (he : ∀ e ∈ evs, e.transmits = true) (hbytes : ctrlBytes evs = stream ps)
    (h : Run.Always Sys.step (Faithful y.fw.dev.mem.log ps) y evs) :
    base.toNat + 4 * (ps.flatMap record).length ≤ halfSize := by
  have hprod := hstart.producing ps
  rw [← hbytes, ← List.append_nil (ctrlBytes evs)] at hprod
  exact (hprod.run he hsend hstart.aligned).fits hstart.aligned hstart.inside h.last.inside

/-- **The transmit buffer.** A run that loads the packets `ps` from `base` on keeps its writes
in the transmit half and sends the packets as they are if and only if the packets with their
lengths do not reach beyond that half. -/
theorem txBuffer_iff {evs : List Event} (hstart : TxStart base y) (hsend : ∀ p ∈ ps, Sendable p)
    (he : ∀ e ∈ evs, e.transmits = true) (hbytes : ctrlBytes evs = stream ps) :
    Run.Always Sys.step (Faithful y.fw.dev.mem.log ps) y evs ↔
      base.toNat + (ps.map fun p => 4 + p.length).sum ≤ memRxBuf.toNat := by
  rw [← length_flatMap_record hsend, memRxBuf_toNat]
  constructor
  · exact hstart.fits hsend he hbytes
  · intro hfit
    have hprod := hstart.producing ps
    rw [← hbytes, ← List.append_nil (ctrlBytes evs)] at hprod
    exact always_faithful hprod (hstart.consuming ps) he hsend hstart.aligned hfit

end

end

theorem ctrlBytes_map (bytes : List Byte) : ctrlBytes (bytes.map .ctrl) = bytes := by
  induction bytes with
  | nil => rfl
  | cons b bytes ih => rw [List.map_cons, ctrlBytes_cons, ih]; rfl

/-- A start with clear memory. -/
def txStartSys (base : Word) : Sys :=
  Sys.boot { bootState with
    spi := { bootState.spi with loadAddr := base }
    main := { bootState.main with pktAddr := base, txAuto := 1 } }

/-- A system at its start. -/
theorem txStartSys_start (base : Word) (haligned : 4 ∣ base.toNat)
    (hinside : base.toNat < memRxBuf.toNat) : TxStart base (txStartSys base) :=
  ⟨haligned, hinside, rfl, rfl, by show (1 : Word) ≠ 0; decide, rfl, rfl, rfl, rfl, rfl, rfl, rfl,
    rfl, rfl, rfl, rfl,
    rfl⟩

/-- Two packets loaded from address 16 on, with the main loop going round behind them. -/
theorem txBuffer_two_packets :
    letI := plainDram
    letI := plainProtocol
    Run.Always Sys.step (Faithful [] [[], [0x01, 0x02, 0x03, 0x04]]) (txStartSys 16)
      ((stream [[], [0x01, 0x02, 0x03, 0x04]]).map .ctrl ++ List.replicate 40 .main) := by
  let := plainDram
  let := plainProtocol
  have hbytes : ctrlBytes ((stream [[], [0x01, 0x02, 0x03, 0x04]]).map .ctrl
      ++ List.replicate 40 .main) = stream [[], [0x01, 0x02, 0x03, 0x04]] := by
    rw [ctrlBytes, List.filterMap_append]
    exact (List.append_nil _).trans (ctrlBytes_map _)
  have he : ∀ e ∈ (stream [[], [0x01, 0x02, 0x03, 0x04]]).map Event.ctrl
      ++ List.replicate 40 .main, e.transmits = true := by
    intro e he
    rcases List.mem_append.mp he with h | h
    · obtain ⟨b, -, rfl⟩ := List.mem_map.mp h
      rfl
    · rw [List.eq_of_mem_replicate h]
      rfl
  have hsend : ∀ p ∈ [[], [(0x01 : Byte), 0x02, 0x03, 0x04]], Sendable p := by
    simp only [Sendable]
    decide
  exact (txBuffer_iff (txStartSys_start 16 (by decide) (by decide)) hsend he hbytes).mpr
    (by decide)

/-- With four bytes left in the half, a packet of one word puts its payload into the receive
half. -/
theorem txBuffer_leaves_half :
    letI := plainDram
    letI := plainProtocol
    TxStart (memRxBuf - 4) (txStartSys (memRxBuf - 4)) ∧
      ([[0x01, 0x02, 0x03, 0x04]].map fun p : List Byte => 4 + p.length).sum ≤ halfSize ∧
      ¬ Run.Always Sys.step (Faithful [] [[0x01, 0x02, 0x03, 0x04]]) (txStartSys (memRxBuf - 4))
        ((stream [[0x01, 0x02, 0x03, 0x04]]).map .ctrl) := by
  let := plainDram
  let := plainProtocol
  have hstart := txStartSys_start (memRxBuf - 4) (by decide) (by decide)
  refine ⟨hstart, by decide, fun h => ?_⟩
  have hsend : ∀ p ∈ [[(0x01 : Byte), 0x02, 0x03, 0x04]], Sendable p := by
    simp only [Sendable]
    decide
  have he : ∀ e ∈ (stream [[0x01, 0x02, 0x03, 0x04]]).map Event.ctrl, e.transmits = true := by
    intro e he
    obtain ⟨b, -, rfl⟩ := List.mem_map.mp he
    rfl
  exact absurd (hstart.fits hsend he (ctrlBytes_map _) h) (by decide)

end HbcMac

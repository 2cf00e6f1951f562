import HbcMac.MemTheorems
import HbcMac.TxAccount

/-!
# The loader

`StreamAt` describes the firmware in the middle of a stream of `CMD_HBC_TX_PACKET`s with
their payloads: each packet is stored as its length and its payload words, one address after
the other. Nothing brings the address of the loader back into the transmit half.
-/

namespace HbcMac

open LittleEndian

/-! ## Payloads as words -/

/-- The words of a payload. -/
def wordsOf : List Byte → List Word
  | b₀ :: b₁ :: b₂ :: b₃ :: bytes => ofBytes b₀ b₁ b₂ b₃ :: wordsOf bytes
  | _ => []

/-- Induction on a payload, a word at a time. -/
@[elab_as_elim]
theorem payload_induction {motive : List Byte → Prop}
    (short : ∀ p, p.length < 4 → motive p)
    (word : ∀ b₀ b₁ b₂ b₃ p, motive p → motive (b₀ :: b₁ :: b₂ :: b₃ :: p)) (p : List Byte) :
    motive p :=
  match p with
  | [] => short [] (show 0 < 4 by decide)
  | [b₀] => short [b₀] (show 1 < 4 by decide)
  | [b₀, b₁] => short [b₀, b₁] (show 2 < 4 by decide)
  | [b₀, b₁, b₂] => short [b₀, b₁, b₂] (show 3 < 4 by decide)
  | b₀ :: b₁ :: b₂ :: b₃ :: p => word b₀ b₁ b₂ b₃ p (payload_induction short word p)

/-- Whole words in front of the rest. -/
theorem wordsOf_append (head bytes : List Byte) (h : 4 ∣ head.length) :
    wordsOf (head ++ bytes) = wordsOf head ++ wordsOf bytes := by
  induction head using payload_induction with
  | word b₀ b₁ b₂ b₃ head ih =>
    have hrest : 4 ∣ head.length := by
      simp only [List.length_cons] at h
      omega
    simp only [List.cons_append, wordsOf, ih hrest]
  | short head hshort =>
    have hnil : head = [] := List.length_eq_zero_iff.mp (by omega)
    rw [hnil]
    rfl

theorem wordsOf_short {p : List Byte} (h : p.length < 4) : wordsOf p = [] := by
  match p, h with
  | [], _ | [_], _ | [_, _], _ | [_, _, _], _ => rfl

/-- One word for four bytes. -/
theorem length_wordsOf (bytes : List Byte) : (wordsOf bytes).length = bytes.length / 4 := by
  induction bytes using payload_induction with
  | word b₀ b₁ b₂ b₃ bytes ih =>
    simp only [wordsOf, List.length_cons, ih]
    omega
  | short bytes hshort =>
    rw [Nat.div_eq_of_lt hshort, wordsOf_short hshort]
    rfl

/-- `rd_data` after fewer than four bytes of a word. -/
def packed : List Byte → Word
  | [] => 0
  | [b₀] => place b₀ 0
  | [b₀, b₁] => place b₀ 0 ||| place b₁ 1
  | [b₀, b₁, b₂] => place b₀ 0 ||| place b₁ 1 ||| place b₂ 2
  | b₀ :: b₁ :: b₂ :: b₃ :: _ => ofBytes b₀ b₁ b₂ b₃

/-- One more byte of a word. -/
theorem packed_snoc (cur : List Byte) (b : Byte) (h : cur.length < 4) :
    packed cur ||| place b cur.length = packed (cur ++ [b]) := by
  match cur, h with
  | [], _ => exact BitVec.zero_or
  | [_], _ | [_, _], _ | [_, _, _], _ => rfl

/-- Four bytes make a word. -/
theorem wordsOf_packed (word : List Byte) (h : word.length = 4) : wordsOf word = [packed word] := by
  match word, h with
  | [_, _, _, _], _ => rfl

/-- The words a packet occupies. -/
def record (p : List Byte) : List Word := BitVec.ofNat 32 p.length :: wordsOf p

/-! ## Memory -/

/-- The address of word `j` behind `base`. -/
def txAddr (base : Word) (j : ℕ) : Word := base + BitVec.ofNat 32 (4 * j)

/-- The next word. -/
theorem txAddr_succ (base : Word) (j : ℕ) : txAddr base j + 4 = txAddr base (j + 1) := by
  rw [txAddr, txAddr, Nat.mul_add, BitVec.ofNat_add, BitVec.add_assoc]
  rfl

/-- Without overflow the address is the sum. -/
theorem txAddr_toNat {base : Word} {j : ℕ} (h : base.toNat + 4 * j < 2 ^ 32) :
    (txAddr base j).toNat = base.toNat + 4 * j := by
  rw [txAddr, BitVec.toNat_add, BitVec.toNat_ofNat, Nat.mod_eq_of_lt (by omega : 4 * j < 2 ^ 32),
    Nat.mod_eq_of_lt h]

/-! ## Commands and payload bytes -/

section
variable [Board]

/-- `CMD_HBC_TX_PACKET` writes its argument in front of the payload to come. -/
structure PacketOpened (arg : Word) (s s' : State) : Prop where
  cells : s'.mem.cells = store s.mem.cells (s.spi.loadAddr, arg)
  log : s'.mem.log = s.mem.log ++ [(s.spi.loadAddr, arg)]
  loadAddr : s'.spi.loadAddr = s.spi.loadAddr + 4
  loadingMem : s'.spi.loadingMem = arg.toNat
  loadIndex : s'.spi.loadIndex = 0
  rdData : s'.spi.rdData = s.spi.rdData
  main : s'.main = { s.main with txPending := s.main.txPending + 1 }

/-- What the command opens. -/
theorem execCmd_hbcTxPacket [HostProtocol] (arg : Word) (s : State) :
    PacketOpened arg s (execCmd (HostProtocol.code .hbcTxPacket) arg s) := by
  have hregistered : registered (HostProtocol.code .hbcTxPacket) arg s
      = ctrlSwitch .hbcTxPacket arg s := by
    simp only [registered, decodeCmd_code, Option.elim_some, if_true]
  have hkept := txKept_hbcDataIrq (ctrlSwitch .hbcTxPacket arg s)
  obtain ⟨hreader, hmain, -⟩ := readerStep_hbcDataIrq (ctrlSwitch .hbcTxPacket arg s)
  rw [execCmd_eq, hregistered]
  exact ⟨hreader.cells, hreader.log, hkept.loadAddr, hkept.loadingMem, hkept.loadIndex,
    hkept.rdData, hmain⟩

/-- A byte that does not complete a word. -/
theorem loadByte_within {b : Byte} {s : State} (h : s.spi.loadIndex + 1 ≠ 4) :
    loadByte b s = { s with spi := { s.spi with
      rdData := s.spi.rdData ||| place b s.spi.loadIndex
      loadIndex := s.spi.loadIndex + 1
      loadingMem := s.spi.loadingMem - 1 } } := if_neg h

/-- The byte that completes a word. -/
theorem loadByte_word {b : Byte} {s : State} (h : s.spi.loadIndex + 1 = 4) :
    loadByte b s = { s with
      mem := (memSetWrP s.spi.loadAddr s).mem.write (s.spi.rdData ||| place b s.spi.loadIndex)
      spi := { s.spi with
        rdData := 0
        loadIndex := 0
        loadAddr := s.spi.loadAddr + 4
        loadingMem := s.spi.loadingMem - 1 } } := if_pos h

end

/-! ## What has been written -/

section
variable [Dram]

/-- Words of the memory do not share cells. -/
theorem cell_txAddr_ne_of_mem {base : Word} {j k : ℕ} (hbase : 4 ∣ base.toNat) (hjk : j < k)
    (hfit : base.toNat + 4 * (k + 1) ≤ memSize.toNat) :
    Board.cell (txAddr base j) ≠ Board.cell (txAddr base k) := by
  rw [memSize_toNat, halfSize_eq] at hfit
  have hj : (txAddr base j).toNat = base.toNat + 4 * j := txAddr_toNat (by omega)
  have hk : (txAddr base k).toNat = base.toNat + 4 * k := txAddr_toNat (by omega)
  intro hcell
  have heq := Dram.cell_inj _ _ (by rw [hj, memSize_toNat, halfSize_eq]; omega)
    (by rw [hk, memSize_toNat, halfSize_eq]; omega) (by rw [hj]; omega) (by rw [hk]; omega) hcell
  have hnat := congrArg BitVec.toNat heq
  rw [hj, hk] at hnat
  omega

/-- Words of the transmit half do not share cells. -/
theorem cell_txAddr_ne {base : Word} {j k : ℕ} (hbase : 4 ∣ base.toNat) (hjk : j < k)
    (hfit : base.toNat + 4 * (k + 1) ≤ halfSize) :
    Board.cell (txAddr base j) ≠ Board.cell (txAddr base k) :=
  cell_txAddr_ne_of_mem hbase hjk (by rw [memSize_toNat]; omega)

/-- The loader has written `ws` from `base` on, and nothing else has been written. -/
structure Written (base : Word) (log₀ : List (Word × Word)) (ws : List Word) (s : State) : Prop where
  loadAddr : s.spi.loadAddr = txAddr base ws.length
  log : ∃ new, s.mem.log = log₀ ++ new ∧ new.map Prod.fst = (List.range ws.length).map (txAddr base)
  cells : base.toNat + 4 * ws.length ≤ halfSize → ∀ j (h : j < ws.length),
    s.mem.cells (Board.cell (txAddr base j)) = ws[j]

namespace Written

variable {base : Word} {log₀ : List (Word × Word)} {ws : List Word} {s s' : State}

/-- What leaves address and memory alone leaves what is written. -/
theorem kept (h : Written base log₀ ws s) (haddr : s'.spi.loadAddr = s.spi.loadAddr)
    (hmem : MemKept s s') : Written base log₀ ws s' where
  loadAddr := haddr.trans h.loadAddr
  log := by rw [hmem.log]; exact h.log
  cells := by rw [hmem.cells]; exact h.cells

/-- One more word, at the address of the loader. -/
theorem write (h : Written base log₀ ws s) (hbase : 4 ∣ base.toNat) {w : Word}
    (hcells : s'.mem.cells = store s.mem.cells (s.spi.loadAddr, w))
    (hlog : s'.mem.log = s.mem.log ++ [(s.spi.loadAddr, w)])
    (haddr : s'.spi.loadAddr = s.spi.loadAddr + 4) : Written base log₀ (ws ++ [w]) s' where
  loadAddr := by
    rw [haddr, h.loadAddr, txAddr_succ, List.length_append]
    rfl
  log := by
    obtain ⟨new, hnew, hfst⟩ := h.log
    refine ⟨new ++ [(s.spi.loadAddr, w)], ?_, ?_⟩
    · rw [hlog, hnew, List.append_assoc]
    · rw [List.map_append, hfst, List.length_append, List.length_singleton, List.range_succ,
        List.map_append, h.loadAddr]
      rfl
  cells := by
    intro hfit j hj
    rw [List.length_append, List.length_singleton] at hfit hj
    rw [hcells, h.loadAddr]
    by_cases hlast : j = ws.length
    · subst hlast
      rw [List.getElem_concat_length rfl]
      exact store_of_eq s.mem.cells (txAddr base ws.length, w)
    · have hlt : j < ws.length := by omega
      have hne := cell_txAddr_ne hbase hlt hfit
      rw [store_of_ne hne, List.getElem_append_left hlt]
      exact h.cells (by omega) j hlt

end Written

/-! ## The stream of packets -/

variable [HostProtocol]

/-- A packet for transmission with its payload. -/
def txItem (p : List Byte) : Item :=
  .command (HostProtocol.code .hbcTxPacket) (BitVec.ofNat 32 p.length) p

/-- Its packet, without header byte and payload. -/
def txPkt (p : List Byte) : Vector Byte packetSize :=
  commandPkt (HostProtocol.code .hbcTxPacket) (BitVec.ofNat 32 p.length)

/-- The packets, one after the other, as bytes on the control port. -/
def stream (ps : List (List Byte)) : List Byte := ps.flatMap fun p => (txItem p).encode

omit [Dram] in
/-- The first packet, and the rest. -/
theorem stream_cons (p : List Byte) (ps : List (List Byte)) :
    stream (p :: ps) = HostProtocol.packetHeader :: ((txPkt p).toList ++ (p ++ stream ps)) := by
  rw [stream, List.flatMap_cons, ← List.append_assoc]
  rfl

/-- Payloads of whole words that a frame can carry. -/
def Sendable (p : List Byte) : Prop := 4 ∣ p.length ∧ p.length ≤ 252

/-- The load of a packet that has come in whole. -/
def wholeLoad (p : List Byte) : Load := ⟨true, p.length, p.length⟩

/-- The firmware in the middle of the stream of the packets `ps`: `rest` is still to come,
and the packets `done` have been loaded. -/
inductive StreamAt (base : Word) (log₀ : List (Word × Word)) (ps : List (List Byte))
    (rest : List Byte) (done : List (List Byte)) (loads : List Load) (f : Firmware) : Prop
  | idle (todo : List (List Byte))
      (hps : ps = done ++ todo) (hrest : rest = stream todo) (hloads : loads = done.map wholeLoad)
      (hparser : f.parser.bytesReq = 0) (hloading : f.dev.spi.loadingMem = 0)
      (hrd : f.dev.spi.rdData = 0) (hwritten : Written base log₀ (done.flatMap record) f.dev)
  | framed (todo : List (List Byte)) (p : List Byte) (n : ℕ)
      (hps : ps = done ++ p :: todo)
      (hrest : rest = (txPkt p).toList.drop (packetSize - (n + 1)) ++ (p ++ stream todo))
      (hloads : loads = done.map wholeLoad) (hparser : f.parser.bytesReq = n + 1)
      (hbuf : ∀ i (h : i < packetSize), i < packetSize - (n + 1) → f.parser.pkt[i] = (txPkt p)[i])
      (hloading : f.dev.spi.loadingMem = 0) (hrd : f.dev.spi.rdData = 0)
      (hwritten : Written base log₀ (done.flatMap record) f.dev)
  | loading (todo : List (List Byte)) (p head cur tail : List Byte)
      (hps : ps = done ++ p :: todo) (hp : p = head ++ cur ++ tail) (htail : tail ≠ [])
      (hhead : 4 ∣ head.length) (hcur : cur.length < 4) (hrest : rest = tail ++ stream todo)
      (hloads : loads = done.map wholeLoad ++ [⟨true, p.length, head.length + cur.length⟩])
      (hparser : f.parser.bytesReq = 0) (hloading : f.dev.spi.loadingMem = tail.length)
      (hindex : f.dev.spi.loadIndex = cur.length) (hrd : f.dev.spi.rdData = packed cur)
      (hwritten : Written base log₀
        (done.flatMap record ++ (BitVec.ofNat 32 p.length :: wordsOf head)) f.dev)

namespace StreamAt

variable {base : Word} {log₀ : List (Word × Word)} {ps done : List (List Byte)}
  {rest : List Byte} {loads : List Load} {f f' : Firmware}

omit [Dram] in
/-- Steps of the main loop and of the data port do not matter. -/
theorem kept [Dram] {m : MainVars} (h : StreamAt base log₀ ps rest done loads f)
    (hparser : f'.parser = f.parser) (htx : TxKept { f.dev with main := m } f'.dev)
    (hmem : MemKept f.dev f'.dev) :
    StreamAt base log₀ ps rest done loads f' := by
  cases h with
  | idle todo h1 h2 h3 h4 h5 h6 h7 =>
    exact .idle todo h1 h2 h3 (hparser ▸ h4) (htx.loadingMem.trans h5) (htx.rdData.trans h6)
      (h7.kept htx.loadAddr hmem)
  | framed todo p n h1 h2 h3 h4 h5 h6 h7 h8 =>
    exact .framed todo p n h1 h2 h3 (hparser ▸ h4) (hparser ▸ h5) (htx.loadingMem.trans h6)
      (htx.rdData.trans h7) (h8.kept htx.loadAddr hmem)
  | loading todo p head cur tail h1 h2 h3 h4 h5 h6 h7 h8 h9 h10 h11 h12 =>
    exact .loading todo p head cur tail h1 h2 h3 h4 h5 h6 h7 (hparser ▸ h8)
      (htx.loadingMem.trans h9) (htx.loadIndex.trans h10) (htx.rdData.trans h11)
      (h12.kept htx.loadAddr hmem)

/-- The command byte by byte. -/
theorem step_framed {todo : List (List Byte)} {p : List Byte} {n : ℕ} {b : Byte}
    (hps : ps = done ++ p :: todo) (hsend : Sendable p)
    (hrest : b :: rest = (txPkt p).toList.drop (packetSize - (n + 1)) ++ (p ++ stream todo))
    (hloads : loads = done.map wholeLoad) (hparser : f.parser.bytesReq = n + 1)
    (hbuf : ∀ i (h : i < packetSize), i < packetSize - (n + 1) → f.parser.pkt[i] = (txPkt p)[i])
    (hloading : f.dev.spi.loadingMem = 0) (hrd : f.dev.spi.rdData = 0)
    (hwritten : Written base log₀ (done.flatMap record) f.dev) (hbase : 4 ∣ base.toNat) :
    ∃ done' n, StreamAt base log₀ ps rest done' (loadsAfter b f loads) (hbcCtrlIrq b f) ∧
      (hbcCtrlIrq b f).dev.main = { f.dev.main with txPending := n } := by
  obtain ⟨⟨buf, bytesReq, hn⟩, s⟩ := f
  obtain rfl : bytesReq = n + 1 := hparser
  rw [drop_packet (txPkt p) hn, List.cons_append, List.cons.injEq] at hrest
  obtain ⟨rfl, hrest⟩ := hrest
  obtain ⟨hirq, haccept⟩ := hbcCtrlIrq_push
    (b := (txPkt p).get ⟨packetSize - (n + 1), by omega⟩) (p := ⟨buf, n + 1, hn⟩) hloading
  rw [push_store] at hirq haccept
  cases n with
  | succ n =>
    rw [if_pos (Nat.succ_ne_zero n)] at hirq haccept
    -- the packet is not complete yet: the byte goes to its place in the buffer
    have hsame : loadsAfter ((txPkt p).get ⟨packetSize - (n + 1 + 1), by omega⟩)
        ⟨⟨buf, n + 1 + 1, hn⟩, s⟩ loads = loads := by
      rw [loadsAfter, if_neg (not_not.mpr hloading), haccept]
    rw [hsame, hirq]
    exact ⟨done, s.main.txPending, .framed todo p n hps hrest hloads rfl (store_agrees hn hbuf)
      hloading hrd (hwritten.kept rfl ⟨rfl, rfl, rfl⟩), rfl⟩
  | zero =>
    -- the last of the six bytes
    have hfull : buf.set (packetSize - 1) ((txPkt p).get ⟨packetSize - 1, by decide⟩) (by decide)
        = txPkt p := Vector.ext fun i h => store_agrees hn hbuf i h h
    have hintact : intactCommand (txPkt p)
        = some (HostProtocol.code .hbcTxPacket, BitVec.ofNat 32 p.length) :=
      intactCommand_commandPkt _ _
    have hlast : ¬ (0 : ℕ) ≠ 0 := not_not.mpr rfl
    rw [hfull, if_neg hlast, hintact] at hirq haccept
    have hdone : (txPkt p).toList.drop (packetSize - 0) = [] :=
      List.drop_eq_nil_of_le (by rw [Vector.length_toList]; exact Nat.le_refl _)
    rw [hdone, List.nil_append] at hrest
    have hlen : (BitVec.ofNat 32 p.length).toNat = p.length := by
      have hle := hsend.2
      rw [BitVec.toNat_ofNat, Nat.mod_eq_of_lt (by omega)]
    have hnew := loadsAfter_accepted loads hloading haccept
    rw [decodeCmd_code, hlen] at hnew
    have hopened := execCmd_hbcTxPacket (BitVec.ofNat 32 p.length) s
    have hstored : Written base log₀ (done.flatMap record ++ [BitVec.ofNat 32 p.length])
        (execCmd (HostProtocol.code .hbcTxPacket) (BitVec.ofNat 32 p.length) s) :=
      hwritten.write hbase hopened.cells hopened.log hopened.loadAddr
    simp only [Option.elim_some] at hirq
    rw [hirq, hnew]
    generalize execCmd (HostProtocol.code .hbcTxPacket) (BitVec.ofNat 32 p.length) s = t
      at hopened hstored
    cases p with
    | nil =>
      -- a packet without payload is loaded with its command
      refine ⟨done ++ [[]], s.main.txPending + 1, .idle todo ?_ ?_ ?_ rfl hopened.loadingMem
        (hopened.rdData.trans hrd) ?_, hopened.main⟩
      · rw [hps, List.append_assoc]
        rfl
      · exact hrest
      · rw [hloads, List.map_append]
        rfl
      · rw [List.flatMap_append]
        exact hstored.kept rfl ⟨rfl, rfl, rfl⟩
    | cons c p =>
      refine ⟨done, s.main.txPending + 1, .loading todo (c :: p) [] [] (c :: p) hps rfl
        (List.cons_ne_nil c p) (Nat.dvd_zero 4) (by decide) ?_ ?_ rfl (hopened.loadingMem.trans hlen)
        hopened.loadIndex
        (hopened.rdData.trans hrd) ?_, hopened.main⟩
      · exact hrest
      · rw [hloads]
        rfl
      · exact hstored.kept rfl ⟨rfl, rfl, rfl⟩

/-- The payload byte by byte. -/
theorem step_loading {todo : List (List Byte)} {p head cur tail : List Byte} {b : Byte}
    (hps : ps = done ++ p :: todo) (hp : p = head ++ cur ++ tail) (htail : tail ≠ [])
    (hsend : Sendable p)
    (hhead : 4 ∣ head.length) (hcur : cur.length < 4) (hrest : b :: rest = tail ++ stream todo)
    (hloads : loads = done.map wholeLoad ++ [⟨true, p.length, head.length + cur.length⟩])
    (hparser : f.parser.bytesReq = 0) (hloading : f.dev.spi.loadingMem = tail.length)
    (hindex : f.dev.spi.loadIndex = cur.length) (hrd : f.dev.spi.rdData = packed cur)
    (hwritten : Written base log₀
      (done.flatMap record ++ (BitVec.ofNat 32 p.length :: wordsOf head)) f.dev)
    (hbase : 4 ∣ base.toNat) :
    ∃ done' n, StreamAt base log₀ ps rest done' (loadsAfter b f loads) (hbcCtrlIrq b f) ∧
      (hbcCtrlIrq b f).dev.main = { f.dev.main with txPending := n } := by
  obtain ⟨c, tail, rfl⟩ := List.exists_cons_of_ne_nil htail
  rw [List.cons_append, List.cons.injEq] at hrest
  obtain ⟨rfl, hrest⟩ := hrest
  obtain ⟨parser, s⟩ := f
  rw [List.length_cons] at hloading
  have hbusy : s.spi.loadingMem ≠ 0 := by
    have hsucc : s.spi.loadingMem = tail.length + 1 := hloading
    omega
  obtain ⟨hirq, -⟩ := hbcCtrlIrq_load (b := b) (p := parser) hbusy
  have hcount : loadsAfter b ⟨parser, s⟩ loads
      = done.map wholeLoad ++ [⟨true, p.length, head.length + cur.length + 1⟩] := by
    rw [loadsAfter, if_pos hbusy, hloads, countByte_snoc]
  have hlength : p.length = head.length + cur.length + (tail.length + 1) := by
    rw [hp, List.length_append, List.length_append, List.length_cons]
  have hwhole := hsend.1
  have hindex' : s.spi.loadIndex = cur.length := hindex
  have hrd' : s.spi.rdData = packed cur := hrd
  have hmore : s.spi.loadingMem - 1 = tail.length := by
    have hsucc : s.spi.loadingMem = tail.length + 1 := hloading
    omega
  rw [hirq, hcount]
  by_cases hword : cur.length + 1 = 4
  · -- the fourth byte: a word goes to memory behind those of `head`
    have hstored : Written base log₀ (done.flatMap record
        ++ (BitVec.ofNat 32 p.length :: wordsOf (head ++ (cur ++ [b]))))
      (ctrlReqNext (loadByte b s)) := by
      have hlen : (cur ++ [b]).length = 4 := by
        rw [List.length_append, List.length_singleton, hword]
      have hcat : done.flatMap record ++ (BitVec.ofNat 32 p.length :: wordsOf (head ++ (cur ++ [b])))
          = done.flatMap record ++ (BitVec.ofNat 32 p.length :: wordsOf head)
            ++ [packed (cur ++ [b])] := by
        rw [wordsOf_append _ _ hhead, wordsOf_packed _ hlen, List.append_assoc, List.cons_append]
      rw [hcat, loadByte_word (by rw [hindex']; exact hword), hrd', hindex', packed_snoc _ _ hcur]
      exact hwritten.write hbase rfl rfl rfl
    rw [loadByte_word (by rw [hindex']; exact hword)] at hstored ⊢
    cases tail with
    | nil =>
      -- it was the last one of the packet
      have hall : p = head ++ (cur ++ [b]) := by rw [hp, List.append_assoc]
      refine ⟨done ++ [p], s.main.txPending, .idle todo ?_ ?_ ?_ hparser hmore rfl ?_, rfl⟩
      · rw [hps, List.append_assoc]
        rfl
      · exact hrest
      · have hend : head.length + cur.length + 1 = p.length := hlength.symm
        rw [List.map_append, hend]
        rfl
      · rw [List.flatMap_append, List.flatMap_singleton, record]
        rw [← hall] at hstored
        exact hstored
    | cons d tail =>
      refine ⟨done, s.main.txPending, .loading todo p (head ++ (cur ++ [b])) [] (d :: tail) hps ?_
        (List.cons_ne_nil d tail) ?_ (by decide) hrest ?_ hparser hmore rfl rfl hstored, rfl⟩
      · rw [hp, List.append_nil, List.append_assoc, List.append_assoc, List.append_assoc]
        rfl
      · rw [List.length_append, List.length_append, List.length_singleton, hword]
        exact Nat.dvd_add hhead (Nat.dvd_refl 4)
      · rw [List.length_append, List.length_append, List.length_singleton, List.length_nil,
          Nat.add_zero, Nat.add_assoc]
        rfl
  · -- a payload of whole words does not end inside one
    have htail' : tail ≠ [] := by
      rintro rfl
      rw [List.length_nil] at hlength
      omega
    have hpart := loadByte_within (b := b) (s := s) (by rw [hindex']; exact hword)
    rw [hpart]
    refine ⟨done, s.main.txPending, .loading todo p head (cur ++ [b]) tail hps ?_ htail' hhead ?_
      hrest ?_ hparser hmore ?_ ?_ (hwritten.kept rfl ⟨rfl, rfl, rfl⟩), rfl⟩
    · rw [hp, List.append_assoc, List.append_assoc, List.append_assoc, List.singleton_append]
    · rw [List.length_append, List.length_singleton]
      omega
    · rw [List.length_append, List.length_singleton, Nat.add_assoc]
    · show s.spi.loadIndex + 1 = (cur ++ [b]).length
      rw [hindex', List.length_append]
      rfl
    · show s.spi.rdData ||| place b s.spi.loadIndex = packed (cur ++ [b])
      rw [hrd', hindex', packed_snoc _ _ hcur]

/-- **A byte of the stream.** -/
theorem step {b : Byte} (h : StreamAt base log₀ ps (b :: rest) done loads f)
    (hsend : ∀ p ∈ ps, Sendable p) (hbase : 4 ∣ base.toNat) :
    ∃ done' n, StreamAt base log₀ ps rest done' (loadsAfter b f loads) (hbcCtrlIrq b f) ∧
      (hbcCtrlIrq b f).dev.main = { f.dev.main with txPending := n } := by
  cases h with
  | idle todo hps hrest hloads hparser hloading hrd hwritten =>
    cases todo with
    | nil => cases hrest
    | cons p todo =>
      rw [stream_cons, List.cons.injEq] at hrest
      obtain ⟨hb, hrest⟩ := hrest
      obtain ⟨⟨pkt, bytesReq, hle⟩, s⟩ := f
      obtain rfl : bytesReq = 0 := hparser
      obtain ⟨hirq, haccept⟩ := hbcCtrlIrq_push (b := b) (p := idleParser pkt) hloading
      rw [hb, push_header] at hirq haccept
      have hsame : loadsAfter b ⟨idleParser pkt, s⟩ loads = loads := by
        rw [loadsAfter, if_neg (not_not.mpr hloading), hb, haccept]
      refine ⟨done, s.main.txPending, ?_⟩
      show StreamAt base log₀ ps rest done (loadsAfter b ⟨idleParser pkt, s⟩ loads)
        (hbcCtrlIrq b ⟨idleParser pkt, s⟩) ∧ (hbcCtrlIrq b ⟨idleParser pkt, s⟩).dev.main = _
      rw [hsame, hb, hirq]
      exact ⟨.framed todo p 5 hps hrest hloads rfl
        (fun _ _ hi => absurd hi (Nat.not_lt_zero _)) hloading hrd
        (hwritten.kept rfl ⟨rfl, rfl, rfl⟩), rfl⟩
  | framed todo p n hps hrest hloads hparser hbuf hloading hrd hwritten =>
    exact step_framed hps (hsend p (by rw [hps]; simp)) hrest hloads hparser hbuf hloading hrd
      hwritten hbase
  | loading todo p head cur tail hps hp htail hhead hcur hrest hloads hparser hloading hindex hrd
      hwritten =>
    exact step_loading hps hp htail (hsend p (by rw [hps]; simp)) hhead hcur hrest hloads hparser
      hloading hindex hrd hwritten hbase

/-- The packets loaded come first in the stream. -/
theorem done_first (h : StreamAt base log₀ ps rest done loads f) : done <+: ps := by
  cases h with
  | idle todo hps => exact ⟨todo, hps.symm⟩
  | framed todo p n hps => exact ⟨p :: todo, hps.symm⟩
  | loading todo p head cur tail hps => exact ⟨p :: todo, hps.symm⟩

/-- The words written so far are the first ones of the stream, and the packets loaded are
among them. -/
theorem written (h : StreamAt base log₀ ps rest done loads f) :
    ∃ ws, Written base log₀ ws f.dev ∧ done.flatMap record <+: ws ∧ ws <+: ps.flatMap record := by
  have hdone : done.flatMap record <+: ps.flatMap record := by
    obtain ⟨todo, rfl⟩ := h.done_first
    rw [List.flatMap_append]
    exact List.prefix_append _ _
  cases h with
  | idle todo hps hrest hloads hparser hloading hrd hwritten =>
    exact ⟨_, hwritten, List.prefix_refl _, hdone⟩
  | framed todo p n hps hrest hloads hparser hbuf hloading hrd hwritten =>
    exact ⟨_, hwritten, List.prefix_refl _, hdone⟩
  | loading todo p head cur tail hps hp htail hhead hcur hrest hloads hparser hloading hindex hrd
      hwritten =>
    refine ⟨_, hwritten, List.prefix_append _ _, ?_⟩
    refine ⟨wordsOf (cur ++ tail) ++ todo.flatMap record, ?_⟩
    -- `head` is whole words, so the words of the packet split there
    have hwords : wordsOf p = wordsOf head ++ wordsOf (cur ++ tail) := by
      rw [hp, List.append_assoc, wordsOf_append _ _ hhead]
    rw [hps, List.flatMap_append, List.flatMap_cons, record, hwords]
    simp only [List.append_assoc, List.cons_append]

/-- The loads that have come in whole are those of the packets loaded. -/
theorem loaded_lt {k : ℕ} (h : StreamAt base log₀ ps rest done loads f) (hk : Loaded loads k) :
    k < done.length := by
  have hmap : txLoads (done.map wholeLoad) = done.map wholeLoad := by
    rw [txLoads, List.filter_eq_self]
    intro l hl
    obtain ⟨p, -, rfl⟩ := List.mem_map.mp hl
    rfl
  have hwhole (hloads : loads = done.map wholeLoad) : k < done.length := by
    have hlt := hk.lt
    rwa [hloads, hmap, List.length_map] at hlt
  cases h with
  | idle todo hps hrest hloads => exact hwhole hloads
  | framed todo p n hps hrest hloads => exact hwhole hloads
  | loading todo p head cur tail hps hp htail hhead hcur hrest hloads =>
    by_contra hge
    obtain ⟨l, hl, hdone⟩ := hk
    -- the only further load is the one going on
    rw [hloads, txLoads_append, hmap, List.getElem?_append_right (by rw [List.length_map]; omega)] at hl
    have hmem := (List.mem_filter.mp (List.mem_of_getElem? hl)).1
    rw [List.mem_singleton.mp hmem] at hdone
    have htl : 0 < tail.length := List.length_pos_of_ne_nil htail
    have hlength : p.length = head.length + cur.length + tail.length := by
      rw [hp, List.length_append, List.length_append]
    have hdone' : head.length + cur.length = p.length := hdone
    omega

/-- At the end of the stream all packets have been written. -/
theorem finished (h : StreamAt base log₀ ps [] done loads f) :
    Written base log₀ (ps.flatMap record) f.dev := by
  cases h with
  | idle todo hps hrest hloads hparser hloading hrd hwritten =>
    cases todo with
    | nil => rwa [hps, List.append_nil]
    | cons p todo =>
      rw [stream_cons] at hrest
      cases hrest
  | framed todo p n hps hrest hloads hparser =>
    have hn : n + 1 ≤ packetSize := hparser ▸ f.parser.bytesReq_le
    rw [drop_packet (txPkt p) hn] at hrest
    cases hrest
  | loading todo p head cur tail hps hp htail hhead hcur hrest =>
    exact absurd (List.append_eq_nil_iff.mp hrest.symm).1 htail

end StreamAt

end

end HbcMac

import HbcMac.Lib.Run
import HbcMac.PortSteps
import HbcMac.RxSwitch

/-!
# A packet on its way to the host

The dump of a forwarded packet has no cursor of its own: it reads on from `rd_buf_addr`, which the
other readers of the receive ring move as well, and the packet has been released when the dump
starts. What the host gets is the packet as long as nobody moves the cursor or writes to the words
that are still to be read.
-/

namespace HbcMac

open LittleEndian

/-! ## The dump in the registers -/

/-- A packet as it lies in the ring when it is announced: the address of its header, the header
and the words of the payload, and the number of payload bytes. -/
structure Announced where
  start : Word
  words : List Word
  length : ℕ

namespace Announced

/-- The header and the payload bytes. -/
def text (p : Announced) : List Byte := (p.words.flatMap bytes).take (4 + p.length)

/-- The address of word `i`. -/
def addr (p : Announced) (i : ℕ) : Word := ringNext^[i] p.start

/-- Of the header and the payload all words are there. -/
def Whole (p : Announced) : Prop := p.words.length = (4 + p.length + 3) / 4

/-- A whole announcement is the frame and the bytes it announces. -/
theorem length_text {p : Announced} (h : p.Whole) : p.text.length = 4 + p.length := by
  unfold Whole at h
  rw [text, List.length_take, length_flatMap_bytes, h]
  omega

/-- Byte `n` of the text is in word `n / 4`. -/
theorem getElem?_text {p : Announced} {n : ℕ} {w : Word} (hn : n < 4 + p.length)
    (hw : p.words[n / 4]? = some w) : p.text[n]? = some (byteAt w (n % 4)) := by
  rw [text, List.getElem?_take, if_pos hn, getElem?_flatMap_bytes, hw]
  rfl

end Announced

/-- When `n` bytes of it have been dumped, a word of the packet is still to be read. -/
def Announced.MoreWords (p : Announced) (n : ℕ) : Prop := (n + 3) / 4 < p.words.length

section
variable [Board]

/-- `n` bytes of the packet have been dumped and the rest is on its way. -/
structure Underway (p : Announced) (n : ℕ) (s : State) : Prop where
  fromRx : s.spi.dumpHbcRx = true
  left : n + s.spi.dumpingMem = p.length + hbcHeaderSize + rxPad
  index : s.spi.dumpIndex = n % 4
  word : n % 4 ≠ 0 → p.words[n / 4]? = some s.spi.wrData
  cursor : p.MoreWords n → s.rx.rdBufAddr = p.addr ((n + 3) / 4)
  rest : ∀ i w, (n + 3) / 4 ≤ i → p.words[i]? = some w → s.mem.get (p.addr i) = w

/-- What `hbc_data_irq` writes to the data port, if it comes to the dump branch. -/
def dumpByte (s : State) : List Byte :=
  if s.spi.ackBytes = 0 ∧ s.spi.replyBytes = 0 ∧ s.spi.dumpingMem ≠ 0 then
    (dataBytes (hbcDataIrq s).out).drop (dataBytes s.out).length
  else []

/-- The dump speaks when nothing else is registered. -/
theorem dumpByte_dump {s : State} (hack : s.spi.ackBytes = 0) (hreply : s.spi.replyBytes = 0)
    (hdump : s.spi.dumpingMem ≠ 0) :
    dumpByte s = [byteAt (dumpFetch s).spi.wrData s.spi.dumpIndex] := by
  rw [dumpByte, if_pos ⟨hack, hreply, hdump⟩, hbcDataIrq_dump hack hreply hdump, dataDump_eq]
  dsimp only
  rw [dataBytes_portWrite, List.drop_left]

/-- In front of it the acknowledge and the reply speak. -/
theorem dumpByte_none {s : State} (h : s.spi.ackBytes ≠ 0 ∨ s.spi.replyBytes ≠ 0) :
    dumpByte s = [] := by
  apply if_neg
  intro hdump
  rcases h with hack | hreply
  · exact hack hdump.1
  · exact hreply hdump.2.1

/-- Nothing speaks at an idle port. -/
theorem dumpByte_idle {s : State} (h : spiPending s = 0) : dumpByte s = [] := by
  rw [spiPending] at h
  exact if_neg fun hdump => hdump.2.2 (by omega)

/-- The registers of the dump are as they were. -/
structure DumpKept (s s' : State) : Prop where
  fromRx : s'.spi.dumpHbcRx = s.spi.dumpHbcRx
  dumpingMem : s'.spi.dumpingMem = s.spi.dumpingMem
  index : s'.spi.dumpIndex = s.spi.dumpIndex
  wrData : s'.spi.wrData = s.spi.wrData

omit [Board] in
/-- The registers of the port are all that counts. -/
theorem DumpKept.of_spi {s s' : State} (h : s'.spi = s.spi) : DumpKept s s' := by
  constructor <;> rw [h]

omit [Board] in
theorem DumpKept.of_port {s s' : State} (h : PortKept s s') : DumpKept s s' :=
  ⟨h.dumpHbcRx, h.dumpingMem, h.dumpIndex, h.wrData⟩

omit [Board] in
/-- Two steps that keep the dump. -/
theorem DumpKept.trans {s t u : State} (h : DumpKept s t) (h' : DumpKept t u) : DumpKept s u where
  fromRx := h'.fromRx.trans h.fromRx
  dumpingMem := h'.dumpingMem.trans h.dumpingMem
  index := h'.index.trans h.index
  wrData := h'.wrData.trans h.wrData

namespace Underway

variable {p : Announced} {n : ℕ} {s s' : State}

/-- A step that leaves the cursor and the words to come alone. -/
theorem kept (h : Underway p n s) (hregs : DumpKept s s')
    (hcursor : p.MoreWords n → s'.rx.rdBufAddr = s.rx.rdBufAddr)
    (hmem : ∀ i, (n + 3) / 4 ≤ i → i < p.words.length →
      s'.mem.get (p.addr i) = s.mem.get (p.addr i)) : Underway p n s' := by
  refine ⟨hregs.fromRx.trans h.fromRx, ?_, hregs.index.trans h.index, fun hn => ?_, fun hmore => ?_,
    fun i w hi hw => ?_⟩
  · rw [hregs.dumpingMem]
    exact h.left
  · rw [hregs.wrData]
    exact h.word hn
  · rw [hcursor hmore]
    exact h.cursor hmore
  · obtain ⟨hlt, -⟩ := List.getElem?_eq_some_iff.mp hw
    rw [hmem i hi hlt]
    exact h.rest i w hi hw

/-- The first byte of a word of the packet. -/
theorem byte_first (h : Underway p n s) (hwhole : p.Whole) (hn : n < 4 + p.length)
    (hfirst : n % 4 = 0) :
    p.words[n / 4]? = some (dumpFetch s).spi.wrData ∧ Underway p (n + 1) (dataDump s) := by
  have hplace : (n + 3) / 4 = n / 4 := by omega
  have hnext : (n + 1 + 3) / 4 = n / 4 + 1 := by omega
  have hlt : n / 4 < p.words.length := by
    unfold Announced.Whole at hwhole
    omega
  have hmore : p.MoreWords n := by
    unfold Announced.MoreWords
    omega
  have hidx : s.spi.dumpIndex = 0 := h.index.trans hfirst
  have hcursor : dumpCursor s = p.addr (n / 4) := by
    rw [dumpCursor, if_pos h.fromRx, h.cursor hmore, hplace]
  obtain ⟨hword, hbuf⟩ := dumpFetch_first hidx
  -- the cursor stands at the word, and the word is still the announced one
  have hread : p.words[n / 4]? = some (dumpFetch s).spi.wrData := by
    have hget := h.rest (n / 4) _ (Nat.le_of_eq hplace) (List.getElem?_eq_getElem hlt)
    rw [hword, hcursor, hget]
    exact List.getElem?_eq_getElem hlt
  refine ⟨hread, ?_⟩
  obtain ⟨hstep, -⟩ := readerStep_dumpFetch s
  have hleft := h.left
  have hone : ¬ s.spi.dumpIndex + 1 = 4 := by omega
  simp only [hbcHeaderSize, rxPad] at hleft
  rw [dataDump_eq]
  refine ⟨h.fromRx, ?_, ?_, fun _ => ?_, fun _ => ?_, fun i w hi hw => ?_⟩
  · dsimp only
    simp only [hbcHeaderSize, rxPad]
    omega
  · dsimp only
    rw [if_neg hone]
    omega
  · have hsame : (n + 1) / 4 = n / 4 := by omega
    rw [hsame]
    exact hread
  · rw [hnext, Announced.addr, Function.iterate_succ_apply']
    refine hbuf.trans ?_
    rw [if_pos h.fromRx, h.cursor hmore, hplace]
    rfl
  · show (dumpFetch s).mem.cells _ = w
    rw [hstep.cells]
    exact h.rest i w (by omega) hw

/-- The three others. -/
theorem byte_more (h : Underway p n s) (hn : n < 4 + p.length) (hmid : n % 4 ≠ 0) :
    p.words[n / 4]? = some (dumpFetch s).spi.wrData ∧ Underway p (n + 1) (dataDump s) := by
  have hidx : s.spi.dumpIndex ≠ 0 := by
    rw [h.index]
    exact hmid
  -- the other bytes come from `wr_data`, whatever has become of cursor and memory
  have hsame : (n + 1 + 3) / 4 = (n + 3) / 4 := by omega
  have hleft := h.left
  have hindex := h.index
  simp only [hbcHeaderSize, rxPad] at hleft
  rw [dataDump_eq, dumpFetch_more hidx]
  refine ⟨h.word hmid, ⟨h.fromRx, ?_, ?_, fun hn' => ?_, fun hmore => ?_, fun i w hi hw => ?_⟩⟩
  · dsimp only
    simp only [hbcHeaderSize, rxPad]
    omega
  · dsimp only
    split <;> omega
  · have hword : (n + 1) / 4 = n / 4 := by omega
    rw [hword]
    exact h.word hmid
  · unfold Announced.MoreWords at hmore
    rw [hsame] at hmore ⊢
    exact h.cursor hmore
  · exact h.rest i w (by omega) hw

/-- **A byte of the dump** is the next byte of the packet. -/
theorem data (h : Underway p n s) (hwhole : p.Whole) (hn : n < 4 + p.length) :
    (dumpByte s = [] ∧ Underway p n (hbcDataIrq s)) ∨
      ∃ b, dumpByte s = [b] ∧ p.text[n]? = some b ∧ Underway p (n + 1) (hbcDataIrq s) := by
  by_cases hack : s.spi.ackBytes = 0
  · by_cases hreply : s.spi.replyBytes = 0
    · have hdump : s.spi.dumpingMem ≠ 0 := by
        have hleft := h.left
        simp only [hbcHeaderSize, rxPad] at hleft
        omega
      -- the dump branch is the last of the three
      have hbyte : p.words[n / 4]? = some (dumpFetch s).spi.wrData ∧
          Underway p (n + 1) (dataDump s) := by
        by_cases hfirst : n % 4 = 0
        · exact h.byte_first hwhole hn hfirst
        · exact h.byte_more hn hfirst
      right
      rw [dumpByte_dump hack hreply hdump, hbcDataIrq_dump hack hreply hdump, h.index]
      exact ⟨_, rfl, Announced.getElem?_text hn hbyte.1, hbyte.2⟩
    · left
      rw [dumpByte_none (.inr hreply), hbcDataIrq_reply hack hreply]
      exact ⟨rfl, h.kept ⟨rfl, rfl, rfl, rfl⟩ (fun _ => rfl) fun _ _ _ => rfl⟩
  · left
    rw [dumpByte_none (.inl hack), hbcDataIrq_ack hack]
    exact ⟨rfl, h.kept ⟨rfl, rfl, rfl, rfl⟩ (fun _ => rfl) fun _ _ _ => rfl⟩

end Underway

/-! ## Commands -/

/-- The commands that move the cursor of the reader. -/
def Cmd.movesReader : Cmd → Bool
  | .hbcRxReady | .hbcRxRead | .hbcRxCheck => true
  | _ => false

variable [HostProtocol]

/-- Only `CMD_MEM_DUMP` registers a dump. -/
theorem dumpKept_ctrlSwitch {cmd : Cmd} (hcmd : cmd ≠ .memDump) (arg : Word) (s : State) :
    DumpKept s (ctrlSwitch cmd arg s) := by
  have hreply {r : Word × State} (h : Quiet s r.2) : DumpKept s (reply r) :=
    (DumpKept.of_spi h.spi).trans ⟨rfl, rfl, rfl, rfl⟩
  have hdevices (h : cmd.usesDevices = true) := ctrlSwitch_devices h arg s
  cases cmd with
  | memDump => exact absurd rfl hcmd
  | memTest | flashRead | flashWrite =>
    obtain ⟨r, hr, hcase⟩ := hdevices rfl
    rw [hcase]
    exact hreply hr.quiet
  | hbcRxCheck => exact hreply (quiet_rxCheckPacket s)
  | hbcRxNext => exact DumpKept.of_spi (quiet_rxPacketNext s).spi
  | hbcTxFilter =>
    obtain ⟨level, hcase⟩ := ctrlSwitch_filter arg s
    rw [hcase]
    exact ⟨rfl, rfl, rfl, rfl⟩
  | _ => exact ⟨rfl, rfl, rfl, rfl⟩

/-- The commands that do not read from the ring leave its cursor. -/
theorem rdBufAddr_ctrlSwitch {cmd : Cmd} (hcmd : cmd.movesReader = false) (arg : Word) (s : State) :
    (ctrlSwitch cmd arg s).rx.rdBufAddr = s.rx.rdBufAddr := by
  have hreply {r : Word × State} (h : DevicesOnly s r.2) :
      (reply r).rx.rdBufAddr = s.rx.rdBufAddr := congrArg RxVars.rdBufAddr h.rx
  have hdevices (h : cmd.usesDevices = true) := ctrlSwitch_devices h arg s
  cases cmd with
  | hbcRxReady | hbcRxRead | hbcRxCheck => cases hcmd
  | memTest | flashRead | flashWrite =>
    obtain ⟨r, hr, hcase⟩ := hdevices rfl
    rw [hcase]
    exact hreply hr
  | hbcRxNext => exact rdBufAddr_rxPacketNext s
  | hbcTxFilter =>
    obtain ⟨level, hcase⟩ := ctrlSwitch_filter arg s
    rw [hcase]
    rfl
  | _ => rfl

/-- What a command leaves in the registers for the trigger. -/
theorem registered_kept (cmd : Byte) (arg : Word) (s : State) :
    ((decodeCmd cmd).any (fun c => c = .memDump) = false → DumpKept s (registered cmd arg s)) ∧
    ((decodeCmd cmd).any Cmd.movesReader = false →
      (registered cmd arg s).rx.rdBufAddr = s.rx.rdBufAddr) := by
  have hack : (registered cmd arg s).rx = ((decodeCmd cmd).elim s fun c => ctrlSwitch c arg s).rx ∧
      DumpKept ((decodeCmd cmd).elim s fun c => ctrlSwitch c arg s) (registered cmd arg s) := by
    obtain ⟨m, d, hreg⟩ := registered_ack cmd arg s
    rw [hreg]
    exact ⟨rfl, ⟨rfl, rfl, rfl, rfl⟩⟩
  obtain ⟨hrx, hregs⟩ := hack
  rw [hrx]
  cases hcase : decodeCmd cmd with
  | none =>
    rw [hcase] at hregs
    exact ⟨fun _ => hregs, fun _ => rfl⟩
  | some c =>
    rw [hcase] at hregs
    refine ⟨fun hdump => DumpKept.trans ?_ hregs, fun hmoves => ?_⟩
    · exact dumpKept_ctrlSwitch (of_decide_eq_false hdump) arg s
    · exact rdBufAddr_ctrlSwitch hmoves arg s

/-! ## Runs -/

/-- The packet `hbc_to_spi` finds at the read cursor. -/
def announced (s : State) : Announced :=
  let length := (rxPacketLength (rxPacketReady s).2).toNat
  let start := ringNext s.rx.rdPacketAddr
  { start := start
    words := (List.iterate ringNext start ((4 + length + 3) / 4)).map s.mem.get
    length := length }

omit [HostProtocol] in
/-- Header, payload and padding make whole words. -/
theorem announced_whole (s : State) : (announced s).Whole := by
  unfold Announced.Whole announced
  rw [List.length_map, List.length_iterate]

omit [HostProtocol] in
/-- The words announced are those in the ring. -/
theorem announced_word {s : State} {i : ℕ} (h : i < (announced s).words.length) :
    (announced s).words[i]? = some (s.mem.get ((announced s).addr i)) := by
  have hlen : i < (4 + (announced s).length + 3) / 4 := by
    rw [← announced_whole s]
    exact h
  have hplace : (List.iterate ringNext (announced s).start
      ((4 + (announced s).length + 3) / 4))[i]? = some ((announced s).addr i) :=
    List.getElem?_iterate _ _ _ _ hlen
  show (List.map s.mem.get _)[i]? = _
  rw [List.getElem?_map]
  exact congrArg (Option.map s.mem.get) hplace

/-- The state in which a step calls `hbc_data_irq`. The call in `hbc_to_spi` is left out: it
writes the first byte of the announcement. -/
def Sys.callsDataIrq (y : Sys) (e : Event) : Option State :=
  if y.pc = .psocHang then none
  else
    match e with
    | .data => some y.fw.dev
    | .ctrl b => (acceptedCmd b y.fw).map fun r => registered r.1 r.2 y.fw.dev
    | _ => none

/-- The bytes a step has the dump branch write. -/
def Sys.dumpBytes (y : Sys) (e : Event) : List Byte := (y.callsDataIrq e).elim [] dumpByte

/-- A step that does not call the handler dumps nothing. -/
theorem Sys.dumpBytes_none {y : Sys} {e : Event} (h : y.callsDataIrq e = none) :
    y.dumpBytes e = [] := by
  rw [Sys.dumpBytes, h]
  rfl

/-- One that does dumps what the handler writes. -/
theorem Sys.dumpBytes_some {y : Sys} {e : Event} {s : State} (h : y.callsDataIrq e = some s) :
    y.dumpBytes e = dumpByte s := by
  rw [Sys.dumpBytes, h]
  rfl

/-- The system since a packet has been announced, with what has been dumped until it
has ended. -/
structure DumpWatch where
  sys : Sys
  packet : Announced
  dumped : List Byte
  ended : Bool

/-- The system goes on, and until the dump has ended its bytes are noted. -/
def DumpWatch.step (w : DumpWatch) (e : Event) : DumpWatch where
  sys := w.sys.step e
  packet := w.packet
  dumped := if w.ended then w.dumped else w.dumped ++ w.sys.dumpBytes e
  ended := w.ended || (w.sys.step e).fw.dev.spi.dumpingMem = 0

/-- The packet at the read cursor of `y` is announced. -/
def DumpWatch.announce (y : Sys) : DumpWatch := ⟨y.step .main, announced y.fw.dev, [], false⟩

/-- A statement of the main loop. -/
def Event.isMain : Event → Bool
  | .main => true
  | _ => false

omit [Board] [HostProtocol] in
/-- The loop looks at a packet in its two calls. -/
theorem looks_iff (y : Sys) (e : Event) :
    looks y e ↔ e.isMain = true ∧ (y.pc = .rxCall true ∨ y.pc = .rxCall false) := by
  have hmain : e = .main ↔ e.isMain = true := by
    cases e <;> simp [Event.isMain]
  have hcall : (∃ forward, y.pc = .rxCall forward) ↔ y.pc = .rxCall true ∨ y.pc = .rxCall false := by
    rw [Bool.exists_bool, or_comm]
  rw [looks, hmain, hcall]

/-- `hbc_to_spi` announces a packet. -/
def Announces (y : Sys) (e : Event) : Prop :=
  e.isMain = true ∧ y.pc = .rxCall true ∧ forwards y.fw.dev = true

/-- The host starts no other dump. -/
def NoOtherDump (w : DumpWatch) (e : Event) : Prop :=
  w.ended = false → (w.sys.command e).any (fun r => r.1 = .memDump) = false

/-- As long as words of the packet are still to be read, the cursor is not moved and they are not
written over; and no other packet is announced before the last byte is out. -/
structure Undisturbed (w : DumpWatch) (e : Event) : Prop where
  announces : w.dumped.length < 4 + w.packet.length → ¬ Announces w.sys e
  looks : w.packet.MoreWords w.dumped.length → ¬ looks w.sys e
  command : w.packet.MoreWords w.dumped.length →
    (w.sys.command e).any (fun r => r.1.movesReader) = false
  words : ∀ i < w.packet.words.length, (w.dumped.length + 3) / 4 ≤ i →
    (w.sys.step e).fw.dev.mem.get (w.packet.addr i) = w.sys.fw.dev.mem.get (w.packet.addr i)

/-- The condition, in a form that can be evaluated. -/
theorem undisturbed_iff (w : DumpWatch) (e : Event) : Undisturbed w e ↔
    (w.dumped.length < 4 + w.packet.length → ¬ Announces w.sys e) ∧
    (w.packet.MoreWords w.dumped.length → ¬ looks w.sys e) ∧
    (w.packet.MoreWords w.dumped.length →
      (w.sys.command e).any (fun r => r.1.movesReader) = false) ∧
    ∀ i < w.packet.words.length, (w.dumped.length + 3) / 4 ≤ i →
      (w.sys.step e).fw.dev.mem.get (w.packet.addr i) = w.sys.fw.dev.mem.get (w.packet.addr i) :=
  ⟨fun h => ⟨h.announces, h.looks, h.command, h.words⟩,
    fun h => ⟨h.1, h.2.1, h.2.2.1, h.2.2.2⟩⟩

instance (p : Announced) (n : ℕ) : Decidable (p.MoreWords n) :=
  inferInstanceAs (Decidable (_ < _))

instance (y : Sys) (e : Event) : Decidable (looks y e) :=
  decidable_of_iff _ (looks_iff y e).symm

instance (y : Sys) (e : Event) : Decidable (Announces y e) :=
  inferInstanceAs (Decidable (_ ∧ _ ∧ _))

instance (w : DumpWatch) (e : Event) : Decidable (NoOtherDump w e) :=
  inferInstanceAs (Decidable (_ → _))

instance (w : DumpWatch) (e : Event) : Decidable (Undisturbed w e) :=
  decidable_of_iff _ (undisturbed_iff w e).symm

/-- What has been dumped is the packet as far as it goes. -/
structure DumpInv (w : DumpWatch) : Prop where
  whole : w.packet.Whole
  agrees : Stream.Agrees w.dumped w.packet.text
  underway : w.ended = false → w.dumped.length < 4 + w.packet.length →
    Underway w.packet w.dumped.length w.sys.fw.dev

/-- A byte that completes no command is nothing to the data port. -/
theorem portKept_hbcCtrlIrq {b : Byte} {f : Firmware} (haccept : acceptedCmd b f = none) :
    PortKept f.dev (hbcCtrlIrq b f).dev := by
  rw [hbcCtrlIrq_dev, haccept, Option.elim_none]
  split
  · exact (portKept_loadByte b f.dev).trans (portKept_ctrlReqNext _)
  · exact portKept_ctrlReqNext _

/-- A byte of the control port that completes no command. -/
theorem Underway.ctrl_none {p : Announced} {n : ℕ} {y : Sys} {b : Byte}
    (h : Underway p n y.fw.dev) (haccept : acceptedCmd b y.fw = none)
    (hmem : ∀ i < p.words.length, (n + 3) / 4 ≤ i →
      (hbcCtrlIrq b y.fw).dev.mem.get (p.addr i) = y.fw.dev.mem.get (p.addr i)) :
    Underway p n (hbcCtrlIrq b y.fw).dev := by
  refine h.kept (DumpKept.of_port (portKept_hbcCtrlIrq haccept)) (fun _ => ?_)
    fun i hi hlt => hmem i hlt hi
  rw [hbcCtrlIrq_dev, haccept]
  show (ite _ _ _ : State).rx.rdBufAddr = _
  split
  · exact rdBufAddr_loadByte b _
  · rfl

/-- A command, in the state in which its trigger calls `hbc_data_irq`. -/
theorem Underway.command {p : Announced} {n : ℕ} {s : State} {cmd : Byte} {arg : Word}
    (h : Underway p n s) (hdump : (decodeCmd cmd).any (fun c => c = .memDump) = false)
    (hmoves : p.MoreWords n → (decodeCmd cmd).any Cmd.movesReader = false)
    (hmem : ∀ i < p.words.length, (n + 3) / 4 ≤ i →
      (registered cmd arg s).mem.get (p.addr i) = s.mem.get (p.addr i)) :
    Underway p n (registered cmd arg s) := by
  obtain ⟨hkept, hbuf⟩ := registered_kept cmd arg s
  exact h.kept (hkept hdump) (fun hmore => hbuf (hmoves hmore)) fun i hi hlt => hmem i hlt hi

/-- A byte of the control port. -/
theorem Underway.ctrl {p : Announced} {n : ℕ} {y : Sys} {b : Byte} (h : Underway p n y.fw.dev)
    (hwhole : p.Whole) (hn : n < 4 + p.length) (hhang : y.pc ≠ .psocHang)
    (hdump : (y.command (.ctrl b)).any (fun r => r.1 = .memDump) = false)
    (hmoves : p.MoreWords n → (y.command (.ctrl b)).any (fun r => r.1.movesReader) = false)
    (hmem : ∀ i < p.words.length, (n + 3) / 4 ≤ i →
      (y.step (.ctrl b)).fw.dev.mem.get (p.addr i) = y.fw.dev.mem.get (p.addr i)) :
    (y.dumpBytes (.ctrl b) = [] ∧ Underway p n (y.step (.ctrl b)).fw.dev) ∨
      ∃ x, y.dumpBytes (.ctrl b) = [x] ∧ p.text[n]? = some x ∧
        Underway p (n + 1) (y.step (.ctrl b)).fw.dev := by
  have hcalls : y.callsDataIrq (.ctrl b)
      = (acceptedCmd b y.fw).map fun r => registered r.1 r.2 y.fw.dev := if_neg hhang
  rw [Sys.command_ctrl hhang, acceptedCase] at hdump hmoves
  rw [Sys.step_ctrl hhang] at hmem ⊢
  dsimp only at hmem ⊢
  rw [Sys.dumpBytes, hcalls]
  cases haccept : acceptedCmd b y.fw with
  | none => exact .inl ⟨rfl, h.ctrl_none haccept hmem⟩
  | some r =>
    obtain ⟨cmd, arg⟩ := r
    rw [haccept] at hdump hmoves
    have hfinal : (hbcCtrlIrq b y.fw).dev
        = ctrlReqNext (hbcDataIrq (registered cmd arg y.fw.dev)) := by
      rw [hbcCtrlIrq_dev, haccept, ← execCmd_eq]
      rfl
    have hany (f : Cmd → Bool) : ((some (cmd, arg)).bind fun r =>
        (decodeCmd r.1).map fun c => (c, r.2)).any (fun r => f r.1) = (decodeCmd cmd).any f := by
      show ((decodeCmd cmd).map fun c => (c, arg)).any (fun r => f r.1) = _
      cases decodeCmd cmd with
      | none => rfl
      | some c => rfl
    have hready : Underway p n (registered cmd arg y.fw.dev) := by
      apply h.command
      · exact (hany fun c => c = .memDump).symm.trans hdump
      · intro hmore
        exact (hany Cmd.movesReader).symm.trans (hmoves hmore)
      · -- the trigger reads memory only
        intro i hlt hi
        obtain ⟨hreader, -⟩ := readerStep_hbcDataIrq (registered cmd arg y.fw.dev)
        rw [← hmem i hlt hi, hfinal]
        show (registered cmd arg y.fw.dev).mem.cells _ = (hbcDataIrq _).mem.cells _
        rw [hreader.cells]
    have hend {m : ℕ} (hm : Underway p m (hbcDataIrq (registered cmd arg y.fw.dev))) :
        Underway p m (hbcCtrlIrq b y.fw).dev := by
      rw [hfinal]
      generalize hbcDataIrq (registered cmd arg y.fw.dev) = t at hm
      exact hm.kept ⟨rfl, rfl, rfl, rfl⟩ (fun _ => rfl) fun _ _ _ => rfl
    rcases hready.data hwhole hn with ⟨hnone, hnext⟩ | ⟨x, hone, htext, hnext⟩
    · exact .inl ⟨hnone, hend hnext⟩
    · exact .inr ⟨x, hone, htext, hend hnext⟩

/-- **One step** has the dump branch write nothing or the next byte of the packet. -/
theorem Underway.step {w : DumpWatch} {e : Event}
    (h : Underway w.packet w.dumped.length w.sys.fw.dev) (hwhole : w.packet.Whole)
    (hn : w.dumped.length < 4 + w.packet.length)
    (hdump : (w.sys.command e).any (fun r => r.1 = .memDump) = false) (hC : Undisturbed w e) :
    (w.sys.dumpBytes e = [] ∧ Underway w.packet w.dumped.length (w.sys.step e).fw.dev) ∨
      ∃ x, w.sys.dumpBytes e = [x] ∧ w.packet.text[w.dumped.length]? = some x ∧
        Underway w.packet (w.dumped.length + 1) (w.sys.step e).fw.dev := by
  have hmem := hC.words
  by_cases hhang : w.sys.pc = .psocHang
  · left
    rw [Sys.step_hang hhang]
    exact ⟨Sys.dumpBytes_none (if_pos hhang), h⟩
  · cases e with
    | main =>
      left
      refine ⟨Sys.dumpBytes_none (if_neg hhang), ?_⟩
      have hport := portStep hhang .main
      cases hport with
      | kept _ _ hkept hrd =>
        exact h.kept (DumpKept.of_port hkept) (fun hmore => hrd (hC.looks hmore))
          fun i hi hlt => hmem i hlt hi
      | next t _ hpull =>
        have hnone : pulled w.sys .main = none := if_neg hhang
        rw [hnone] at hpull
        cases hpull
      | message m hmsg =>
        rw [message, if_neg hhang] at hmsg
        split at hmsg
        · rename_i hcall
          -- another announcement would start a dump of its own
          exact absurd ⟨rfl, hcall.1, hcall.2⟩ (hC.announces hn)
        · cases hmsg
    | ctrl b => exact h.ctrl hwhole hn hhang hdump hC.command hmem
    | data =>
      have hcalls : w.sys.dumpBytes .data = dumpByte w.sys.fw.dev :=
        Sys.dumpBytes_some (if_neg hhang)
      rw [hcalls, Sys.step_data hhang]
      exact h.data hwhole hn
    | rxData arr =>
      left
      have hwriter := writerStep_rxData w.sys.fw.dev arr
      rw [Sys.step_rxData hhang] at hmem ⊢
      exact ⟨Sys.dumpBytes_none (if_neg hhang), h.kept (DumpKept.of_spi hwriter.spi)
        (fun _ => hwriter.rdBufAddr) fun i hi hlt => hmem i hlt hi⟩
    | rxReady arr =>
      left
      have hwriter := writerStep_rxReady w.sys.fw.dev arr
      rw [Sys.step_rxReady hhang] at hmem ⊢
      exact ⟨Sys.dumpBytes_none (if_neg hhang), h.kept (DumpKept.of_spi hwriter.spi)
        (fun _ => hwriter.rdBufAddr) fun i hi hlt => hmem i hlt hi⟩

/-- A step that does not disturb the dump leaves it on its way. -/
theorem DumpInv.step {w : DumpWatch} {e : Event} (h : DumpInv w) (hdump : NoOtherDump w e)
    (hC : w.ended = false → Undisturbed w e) : DumpInv (w.step e) := by
  cases hended : w.ended with
  | true =>
    have hdumped : (w.step e).dumped = w.dumped := by
      show (if w.ended then w.dumped else w.dumped ++ w.sys.dumpBytes e) = _
      rw [hended]
      rfl
    refine ⟨h.whole, ?_, fun hno => ?_⟩
    · rw [hdumped]
      exact h.agrees
    · have hstill : (w.step e).ended = true := by
        show (w.ended || _) = true
        rw [hended, Bool.true_or]
      rw [hstill] at hno
      cases hno
  | false =>
    have hdumped : (w.step e).dumped = w.dumped ++ w.sys.dumpBytes e := by
      show (if w.ended then w.dumped else w.dumped ++ w.sys.dumpBytes e) = _
      rw [hended]
      rfl
    have htext := Announced.length_text h.whole
    have hsys : (w.step e).sys = w.sys.step e := rfl
    have hpacket : (w.step e).packet = w.packet := rfl
    by_cases hn : w.dumped.length < 4 + w.packet.length
    · have hstep := (h.underway hended hn).step h.whole hn (hdump hended) (hC hended)
      rcases hstep with ⟨hnone, hnext⟩ | ⟨x, hone, hx, hnext⟩
      · rw [hnone, List.append_nil] at hdumped
        refine ⟨h.whole, ?_, fun _ _ => ?_⟩
        · rw [hdumped]
          exact h.agrees
        · rw [hdumped]
          exact hnext
      · rw [hone] at hdumped
        refine ⟨h.whole, ?_, fun _ _ => ?_⟩
        · rw [hdumped, hpacket]
          refine h.agrees.snoc fun x' hx' => ?_
          rw [hx] at hx'
          exact Option.some.inj hx'
        · rw [hdumped, List.length_append]
          exact hnext
    · -- behind the text comes the padding
      refine ⟨h.whole, ?_, fun _ hlt => ?_⟩
      · rw [hdumped, hpacket]
        exact h.agrees.append (by omega) _
      · rw [hdumped, hpacket, List.length_append] at hlt
        omega

/-- The state in which a packet has just been announced. -/
theorem dumpInv_announce {y : Sys} (hpc : y.pc = .rxCall true) (hforwards : forwards y.fw.dev = true) :
    DumpInv (DumpWatch.announce y) := by
  have hhang : y.pc ≠ .psocHang := by
    rw [hpc]
    decide
  have hdev : (y.step .main).fw.dev = hbcToSpi true y.fw.dev := by
    rw [Sys.step_main hhang, hpc]
    rfl
  have hstarts := hbcToSpi_starts hforwards
  obtain ⟨hrx, hidx, hcursor⟩ := hstarts.dump _ rfl
  have hcells := (readerStep_hbcToSpi true y.fw.dev).cells
  refine ⟨announced_whole _, Stream.Agrees.nil _, fun _ _ => ?_⟩
  show Underway (announced y.fw.dev) 0 (y.step .main).fw.dev
  rw [hdev]
  refine ⟨hrx, ?_, hidx, fun hne => absurd rfl hne, fun _ => ?_, fun i w _ hw => ?_⟩
  · rw [Nat.zero_add]
    exact hstarts.dumpingMem
  · rw [dumpCursor, if_pos hrx] at hcursor
    exact hcursor
  · obtain ⟨hlt, -⟩ := List.getElem?_eq_some_iff.mp hw
    -- the announcement writes no memory
    rw [announced_word hlt] at hw
    rw [← Option.some.inj hw]
    show (hbcToSpi true y.fw.dev).mem.cells _ = y.fw.dev.mem.cells _
    rw [hcells]

/-- **The dump of a packet.** The bytes of the dump are the header and the payload of the packet
that has been announced, provided that until they are out the cursor of the reader stays with the
dump, the words that are still to be read stay in memory, and no other packet is announced. -/
theorem dump_isolated {y : Sys} (hpc : y.pc = .rxCall true) (hforwards : forwards y.fw.dev = true)
    {evs : List Event} (hdump : Run.Steps DumpWatch.step NoOtherDump (DumpWatch.announce y) evs)
    (hC : Run.Steps DumpWatch.step (fun w e => w.ended = false → Undisturbed w e)
      (DumpWatch.announce y) evs) :
    Run.Always DumpWatch.step (fun w => Stream.Agrees w.dumped w.packet.text)
      (DumpWatch.announce y) evs :=
  (Run.always_of_step (I := DumpInv) (fun _ _ h hstep => h.step hstep.1 hstep.2)
    (dumpInv_announce hpc hforwards) (hdump.and hC)).mono fun _ h => h.agrees

end

/-- A packet with four bytes of payload is received, and the main loop gets to `hbc_to_spi`. -/
def packetReceived [Board] [HostProtocol] : Sys :=
  Run.run Sys.step (Sys.boot (startUp bootState))
    (.rxReady [[0xDA040000, 0x44332211]] :: sending .hbcRxAuto 1 ++ List.replicate 7 .main)

/-- The packet is whole and at the read cursor. -/
theorem packetReceived_announced :
    letI := plainDram
    letI := plainProtocol
    packetReceived.pc = .rxCall true ∧ forwards packetReceived.fw.dev = true := by
  decide +kernel

/-- The host takes the dump, with `CMD_HBC_RX_NEXT` in the middle. -/
def dumpTaken [HostProtocol] : List Event :=
  List.replicate 5 .data ++ sending .hbcRxNext 0 ++ List.replicate 16 .data

theorem dumpTaken_noOtherDump :
    letI := plainDram
    letI := plainProtocol
    Run.Steps DumpWatch.step NoOtherDump (DumpWatch.announce packetReceived) dumpTaken := by
  decide +kernel

theorem dumpTaken_undisturbed :
    letI := plainDram
    letI := plainProtocol
    Run.Steps DumpWatch.step (fun w e => w.ended = false → Undisturbed w e)
      (DumpWatch.announce packetReceived) dumpTaken := by
  decide +kernel

/-- The dump of one packet, with `CMD_HBC_RX_NEXT` on the way. -/
theorem dump_isolated_next :
    letI := plainDram
    letI := plainProtocol
    Run.Always DumpWatch.step (fun w => Stream.Agrees w.dumped w.packet.text)
      (DumpWatch.announce packetReceived) dumpTaken := by
  let := plainDram
  let := plainProtocol
  exact dump_isolated packetReceived_announced.1 packetReceived_announced.2 dumpTaken_noOtherDump
    dumpTaken_undisturbed

/-- `CMD_HBC_RX_FLOOD` while the header is on its way: the main loop does not ask
`hbc_spi_dump_busy` and looks for the next packet. -/
def floodDuringDump [HostProtocol] : List Event :=
  List.replicate 5 .data ++ sending .hbcRxFlood 1 ++ List.replicate 9 .main
    ++ List.replicate 6 .data

theorem floodDuringDump_noOtherDump :
    letI := plainDram
    letI := plainProtocol
    Run.Steps DumpWatch.step NoOtherDump (DumpWatch.announce packetReceived) floodDuringDump := by
  decide +kernel

/-- Behind the header comes what lies behind the packet. -/
theorem dump_moved :
    letI := plainDram
    letI := plainProtocol
    packetReceived.pc = .rxCall true ∧ forwards packetReceived.fw.dev = true ∧
    Run.Steps DumpWatch.step NoOtherDump (DumpWatch.announce packetReceived) floodDuringDump ∧
    ¬ Run.Always DumpWatch.step (fun w => Stream.Agrees w.dumped w.packet.text)
      (DumpWatch.announce packetReceived) floodDuringDump := by
  let := plainDram
  let := plainProtocol
  refine ⟨packetReceived_announced.1, packetReceived_announced.2, floodDuringDump_noOtherDump, ?_⟩
  intro h
  have hdumped : (Run.run DumpWatch.step (DumpWatch.announce packetReceived) floodDuringDump).dumped
      = [0x00, 0x00, 0x04, 0xDA, 0x00] := by decide +kernel
  have htext : (Run.run DumpWatch.step (DumpWatch.announce packetReceived)
      floodDuringDump).packet.text
      = [0x00, 0x00, 0x04, 0xDA, 0x11, 0x22, 0x33, 0x44] := by decide +kernel
  have hlast := h.last
  generalize Run.run DumpWatch.step (DumpWatch.announce packetReceived) floodDuringDump = w
    at hdumped htext hlast
  rw [hdumped, htext] at hlast
  rcases hlast with hprefix | hprefix
  · exact absurd hprefix (by decide)
  · exact absurd hprefix (by decide)

end HbcMac

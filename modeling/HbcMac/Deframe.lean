import HbcMac.CommandSteps
import HbcMac.System

/-!
# The control stream

The host sends commands, each in a packet with a checksum and some followed by a payload,
packets that arrive damaged, and bytes that are no packet at all. The parser takes out
exactly the commands, and the loader takes exactly their payloads.
-/

namespace HbcMac

/-! ## What the host sends -/

/-- What the host sends: a command with its payload, a packet that fails its checksum, or bytes
between packets. -/
inductive Item
  | command (cmd : Byte) (arg : Word) (payload : List Byte)
  /-- A packet as it arrives. -/
  | damaged (pkt : Vector Byte packetSize)
  | noise (bytes : List Byte)

/-- The packet of a command: the argument with its most significant byte first, the checksum
last. -/
def commandPkt (cmd : Byte) (arg : Word) : Vector Byte packetSize :=
  let body := [cmd, LittleEndian.byteAt arg 3, LittleEndian.byteAt arg 2,
    LittleEndian.byteAt arg 1, LittleEndian.byteAt arg 0]
  #v[cmd, LittleEndian.byteAt arg 3, LittleEndian.byteAt arg 2, LittleEndian.byteAt arg 1,
    LittleEndian.byteAt arg 0, body.foldl crc8Update crc8Init]

section
variable [HostProtocol]

/-- The payload bytes the host sends after a command. -/
def announcedBytes (cmd : Byte) (arg : Word) : ℕ :=
  if (decodeCmd cmd).any Cmd.loads then arg.toNat else 0

namespace Item

/-- The payload is as long as announced, a damaged packet fails its check, and noise has no header
byte. -/
def Valid : Item → Prop
  | command cmd arg payload => payload.length = announcedBytes cmd arg
  | damaged pkt => pktCrc pkt ≠ 0
  | noise bytes => ∀ b ∈ bytes, b ≠ HostProtocol.packetHeader

/-- The bytes on the control port. -/
def encode : Item → List Byte
  | command cmd arg payload => HostProtocol.packetHeader :: ((commandPkt cmd arg).toList ++ payload)
  | damaged pkt => HostProtocol.packetHeader :: pkt.toList
  | noise bytes => bytes

omit [HostProtocol] in
/-- The commands to execute. -/
def commands : Item → List (Byte × Word)
  | command cmd arg _ => [(cmd, arg)]
  | _ => []

/-- What is in the packet buffer afterwards. -/
def buffer : Item → Vector Byte packetSize → Vector Byte packetSize
  | command cmd arg _, _ => commandPkt cmd arg
  | damaged pkt, _ => pkt
  | noise _, pkt => pkt

end Item

variable [Board]

/-- The bytes of a payload, each acknowledged. -/
def loadBytes (payload : List Byte) (s : State) : State :=
  payload.foldl (fun s b => ctrlReqNext (loadByte b s)) s

/-- Nothing has happened but `n` acknowledgements on the control line. -/
def acked (n : ℕ) (s : State) : State :=
  { s with
    out := s.out ++ (List.replicate n [Out.gpo .hbcCtrlInt true, .gpo .hbcCtrlInt false]).flatten }

/-- What an item does to the devices. Every byte is acknowledged; besides that only a command
does anything. -/
def Item.exec : Item → State → State
  | command cmd arg payload, s =>
    loadBytes payload (ctrlReqNext (execCmd cmd arg (acked packetSize s)))
  | damaged _, s => acked (packetSize + 1) s
  | noise bytes, s => acked bytes.length s

/-! ## Feeding the control port -/

/-- The bytes, one control interrupt each. -/
def feed (bytes : List Byte) (f : Firmware) : Firmware := bytes.foldl (fun f b => hbcCtrlIrq b f) f

/-- The commands executed on the way. -/
def executed : List Byte → Firmware → List (Byte × Word)
  | [], _ => []
  | b :: bytes, f => (acceptedCmd b f).toList ++ executed bytes (hbcCtrlIrq b f)

/-- The bytes take the firmware from `f` to `f'` and execute `cmds`. -/
structure Feeds (bytes : List Byte) (cmds : List (Byte × Word)) (f f' : Firmware) : Prop where
  state : feed bytes f = f'
  commands : executed bytes f = cmds

namespace Feeds

/-- Nothing is fed. -/
theorem nil (f : Firmware) : Feeds [] [] f f := ⟨rfl, rfl⟩

/-- One byte, and the rest. -/
theorem cons {b : Byte} {bytes : List Byte} {cmd : Option (Byte × Word)}
    {cmds : List (Byte × Word)} {f g f' : Firmware} (hstep : hbcCtrlIrq b f = g)
    (haccept : acceptedCmd b f = cmd) (h : Feeds bytes cmds g f') :
    Feeds (b :: bytes) (cmd.toList ++ cmds) f f' where
  state := by rw [← h.state, ← hstep]; rfl
  commands := by rw [executed, hstep, h.commands, haccept]

/-- A stream can be cut anywhere. -/
theorem append {bytes bytes' : List Byte} {cmds cmds' : List (Byte × Word)}
    {f g h : Firmware} (hf : Feeds bytes cmds f g) (hg : Feeds bytes' cmds' g h) :
    Feeds (bytes ++ bytes') (cmds ++ cmds') f h := by
  induction bytes generalizing f cmds with
  | nil =>
    have hfg : f = g := hf.state
    have hcmds : [] = cmds := hf.commands
    rw [hfg, ← hcmds]
    exact hg
  | cons b bytes ih =>
    have htail : Feeds bytes (executed bytes (hbcCtrlIrq b f)) (hbcCtrlIrq b f) g := ⟨hf.state, rfl⟩
    have hcmds : cmds = (acceptedCmd b f).toList ++ executed bytes (hbcCtrlIrq b f) :=
      hf.commands.symm
    rw [hcmds, List.append_assoc]
    exact cons rfl rfl (ih htail)

end Feeds

/-! ## One byte -/

/-- The parser between two packets. -/
def idleParser (pkt : Vector Byte packetSize) : CmdParser := ⟨pkt, 0, Nat.zero_le _⟩

omit [HostProtocol] in
/-- A payload byte is one byte less to come. -/
theorem loadByte_loadingMem (b : Byte) (s : State) :
    (loadByte b s).spi.loadingMem = s.spi.loadingMem - 1 := by
  unfold loadByte
  dsimp only
  split
  · rfl
  · rfl

omit [HostProtocol] in
/-- The loader has registers of its own, and writes to memory. -/
theorem loadByte_frame (b : Byte) (s : State) :
    ∃ spi mem, loadByte b s = { s with spi := spi, mem := mem } := by
  unfold loadByte
  dsimp only
  split
  · exact ⟨_, _, rfl⟩
  · exact ⟨_, _, rfl⟩

omit [HostProtocol] in
/-- The loader does not touch the variables of the main loop. -/
theorem loadByte_main (b : Byte) (s : State) : (loadByte b s).main = s.main := by
  obtain ⟨spi, mem, hframe⟩ := loadByte_frame b s
  rw [hframe]

omit [HostProtocol] [Board] in
/-- One pulse more. -/
theorem ctrlReqNext_acked (n : ℕ) (s : State) : ctrlReqNext (acked n s) = acked (n + 1) s := by
  rw [acked, acked, List.replicate_succ', List.flatten_append, ← List.append_assoc]
  simp only [ctrlReqNext, State.pulse, State.gpoClear, State.gpoSet, State.emit, List.append_assoc,
    List.flatten_singleton, List.cons_append, List.nil_append]

omit [HostProtocol] [Board] in
/-- A pulse for each byte. -/
theorem iterate_ctrlReqNext (n : ℕ) (s : State) : ctrlReqNext^[n] s = acked n s := by
  induction n with
  | zero => rw [acked, List.replicate_zero, List.flatten_nil, List.append_nil]; rfl
  | succ n ih => rw [Function.iterate_succ_apply', ih, ctrlReqNext_acked]

section
variable {b : Byte} {p : CmdParser} {s : State}

/-- During a load a byte goes to the loader, whatever its value. -/
theorem hbcCtrlIrq_load (hload : s.spi.loadingMem ≠ 0) :
    hbcCtrlIrq b ⟨p, s⟩ = ⟨p, ctrlReqNext (loadByte b s)⟩ ∧ acceptedCmd b ⟨p, s⟩ = none := by
  constructor
  · simp only [hbcCtrlIrq, if_pos hload]
  · simp only [acceptedCmd, if_pos hload]

/-- Otherwise it goes to the parser. -/
theorem hbcCtrlIrq_push (hload : s.spi.loadingMem = 0) :
    hbcCtrlIrq b ⟨p, s⟩
        = ⟨(p.push b).1, ctrlReqNext ((p.push b).2.elim s fun r => execCmd r.1 r.2 s)⟩ ∧
      acceptedCmd b ⟨p, s⟩ = (p.push b).2 := by
  have hnot : ¬ s.spi.loadingMem ≠ 0 := not_not.mpr hload
  constructor
  · simp only [hbcCtrlIrq, if_neg hnot, ctrlCmd]
  · simp only [acceptedCmd, if_neg hnot]

end

omit [Board] in
/-- Between two packets the parser waits for the header byte. -/
theorem push_noise {b : Byte} (pkt : Vector Byte packetSize) (hb : b ≠ HostProtocol.packetHeader) :
    (idleParser pkt).push b = (idleParser pkt, none) := by
  have hidle : (idleParser pkt).bytesReq = 0 := rfl
  unfold CmdParser.push
  rw [dif_pos hidle, if_neg hb]

omit [Board] in
/-- With it a packet begins. -/
theorem push_header (pkt : Vector Byte packetSize) :
    (idleParser pkt).push HostProtocol.packetHeader = (⟨pkt, packetSize, Nat.le_refl _⟩, none) := by
  have hidle : (idleParser pkt).bytesReq = 0 := rfl
  unfold CmdParser.push
  rw [dif_pos hidle, if_pos rfl]
  rfl

/-- The command of a packet that has come in whole. -/
def intactCommand (pkt : Vector Byte packetSize) : Option (Byte × Word) :=
  if pktCrc pkt ≠ 0 then none else some (pktCommand pkt)

omit [Board] in
/-- A byte of a packet goes to its place; the last one yields the command. -/
theorem push_store (b : Byte) (buf : Vector Byte packetSize) {n : ℕ} (hn : n + 1 ≤ packetSize) :
    let buf' := buf.set (packetSize - (n + 1)) b (by simp only [packetSize]; omega)
    CmdParser.push b ⟨buf, n + 1, hn⟩ = (⟨buf', n, Nat.le_of_succ_le hn⟩,
      if n ≠ 0 then none else intactCommand buf') := by
  intro buf'
  have hbusy : ¬ n + 1 = 0 := Nat.succ_ne_zero n
  unfold CmdParser.push
  rw [dif_neg hbusy]
  by_cases hlast : n ≠ 0
  · have hmore : n + 1 - 1 ≠ 0 := hlast
    rw [if_pos hlast, if_pos hmore]
    rfl
  · have hdone : ¬ n + 1 - 1 ≠ 0 := hlast
    rw [if_neg hlast, if_neg hdone, intactCommand]
    split
    · rfl
    · rfl

/-! ## Runs of bytes -/

/-- Noise is acknowledged and forgotten. -/
theorem feeds_noise (bytes : List Byte) (hb : ∀ b ∈ bytes, b ≠ HostProtocol.packetHeader)
    (pkt : Vector Byte packetSize) {s : State} (hload : s.spi.loadingMem = 0) :
    Feeds bytes [] ⟨idleParser pkt, s⟩ ⟨idleParser pkt, acked bytes.length s⟩ := by
  rw [← iterate_ctrlReqNext]
  induction bytes generalizing s with
  | nil => exact Feeds.nil _
  | cons b bytes ih =>
    obtain ⟨hstep, haccept⟩ := hbcCtrlIrq_push (b := b) (p := idleParser pkt) hload
    rw [push_noise pkt (hb b List.mem_cons_self)] at hstep haccept
    have htail := ih (fun c hc => hb c (List.mem_cons_of_mem b hc)) (s := ctrlReqNext s) hload
    exact Feeds.cons hstep haccept htail

/-- The loader takes the bytes of a payload. -/
theorem feeds_payload (payload : List Byte) (p : CmdParser) {s : State}
    (hload : s.spi.loadingMem = payload.length) :
    Feeds payload [] ⟨p, s⟩ ⟨p, loadBytes payload s⟩ ∧
      (loadBytes payload s).spi.loadingMem = 0 := by
  induction payload generalizing s with
  | nil => exact ⟨Feeds.nil _, hload⟩
  | cons b payload ih =>
    rw [List.length_cons] at hload
    have hne : s.spi.loadingMem ≠ 0 := by omega
    obtain ⟨hstep, haccept⟩ := hbcCtrlIrq_load (b := b) (p := p) hne
    have hrest : (ctrlReqNext (loadByte b s)).spi.loadingMem = payload.length := by
      show (loadByte b s).spi.loadingMem = payload.length
      rw [loadByte_loadingMem]
      omega
    obtain ⟨htail, hzero⟩ := ih hrest
    exact ⟨Feeds.cons hstep haccept htail, hzero⟩

omit [HostProtocol] [Board] in
/-- The bytes of a packet still to come, the next one first. -/
theorem drop_packet (pkt : Vector Byte packetSize) {n : ℕ} (hn : n + 1 ≤ packetSize) :
    pkt.toList.drop (packetSize - (n + 1))
      = pkt.get ⟨packetSize - (n + 1), by omega⟩ :: pkt.toList.drop (packetSize - n) := by
  have hidx : packetSize - (n + 1) < pkt.toList.length := by
    rw [Vector.length_toList]
    omega
  have hnext : packetSize - (n + 1) + 1 = packetSize - n := by omega
  rw [List.drop_eq_getElem_cons hidx, Vector.getElem_toList, hnext]
  rfl

omit [HostProtocol] [Board] in
/-- With its next byte stored the buffer agrees with the packet one place further. -/
theorem store_agrees {pkt buf : Vector Byte packetSize} {n : ℕ} (hn : n + 1 ≤ packetSize)
    (hbuf : ∀ i (h : i < packetSize), i < packetSize - (n + 1) → buf[i] = pkt[i])
    (i : ℕ) (h : i < packetSize) (hi : i < packetSize - n) :
    (buf.set (packetSize - (n + 1)) (pkt.get ⟨packetSize - (n + 1), by omega⟩) (by omega))[i]
      = pkt[i] := by
  rw [Vector.getElem_set]
  split
  · next heq =>
    subst heq
    rfl
  · exact hbuf i h (by omega)

/-- The last `n + 1` bytes of a packet, when those before are in the buffer. -/
theorem feeds_packet (pkt : Vector Byte packetSize) {n : ℕ} {buf : Vector Byte packetSize}
    {s : State} (hn : n + 1 ≤ packetSize) (hload : s.spi.loadingMem = 0)
    (hbuf : ∀ i (h : i < packetSize), i < packetSize - (n + 1) → buf[i] = pkt[i]) :
    Feeds (pkt.toList.drop (packetSize - (n + 1)))
      (intactCommand pkt).toList ⟨⟨buf, n + 1, hn⟩, s⟩
      ⟨idleParser pkt, ctrlReqNext
        ((intactCommand pkt).elim (ctrlReqNext^[n] s) fun r =>
          execCmd r.1 r.2 (ctrlReqNext^[n] s))⟩ := by
  induction n generalizing buf s with
  | zero =>
    obtain ⟨hstep, haccept⟩ :=
      hbcCtrlIrq_push (b := pkt.get ⟨packetSize - 1, by decide⟩) (p := ⟨buf, 1, hn⟩) hload
    rw [push_store] at hstep haccept
    have hfull : buf.set (packetSize - 1) (pkt.get ⟨packetSize - 1, by decide⟩) (by decide) = pkt :=
      Vector.ext fun i h => store_agrees hn hbuf i h h
    rw [hfull] at hstep haccept
    have hdone : pkt.toList.drop (packetSize - 0) = [] :=
      List.drop_eq_nil_of_le (by rw [Vector.length_toList]; exact Nat.le_refl _)
    rw [drop_packet pkt hn, hdone, ← List.append_nil (intactCommand pkt).toList]
    exact Feeds.cons hstep haccept (Feeds.nil _)
  | succ n ih =>
    obtain ⟨hstep, haccept⟩ := hbcCtrlIrq_push
      (b := pkt.get ⟨packetSize - (n + 1 + 1), by omega⟩) (p := ⟨buf, n + 1 + 1, hn⟩) hload
    rw [push_store, if_pos (Nat.succ_ne_zero n)] at hstep haccept
    rw [drop_packet pkt hn]
    exact Feeds.cons hstep haccept (ih (Nat.le_of_succ_le hn) hload (store_agrees hn hbuf))

/-! ## Items -/

omit [HostProtocol] [Board] in
/-- The packets the host makes are intact. -/
theorem pktCrc_commandPkt (cmd : Byte) (arg : Word) : pktCrc (commandPkt cmd arg) = 0 :=
  crc8Update_self _

omit [HostProtocol] [Board] in
/-- `buf_to_word` reads back an argument sent with its most significant byte first. -/
theorem pktCommand_commandPkt (cmd : Byte) (arg : Word) :
    pktCommand (commandPkt cmd arg) = (cmd, arg) := by
  have harg : bufToWord (commandPkt cmd arg) packetArgOffset (by decide)
      = LittleEndian.ofBytes (LittleEndian.byteAt arg 0) (LittleEndian.byteAt arg 1)
          (LittleEndian.byteAt arg 2) (LittleEndian.byteAt arg 3) := by
    have hrev (a b c d : Word) : a ||| b ||| c ||| d = d ||| c ||| b ||| a := by ac_rfl
    have hzero (b : Byte) : LittleEndian.place b 0 = b.setWidth 32 := BitVec.shiftLeft_zero _
    rw [LittleEndian.ofBytes, hzero, hrev]
    rfl
  rw [LittleEndian.ofBytes_byteAt] at harg
  rw [pktCommand, harg]
  rfl

omit [HostProtocol] [Board] in
/-- They carry the command they were made for. -/
theorem intactCommand_commandPkt (cmd : Byte) (arg : Word) :
    intactCommand (commandPkt cmd arg) = some (cmd, arg) := by
  rw [intactCommand, pktCrc_commandPkt, pktCommand_commandPkt]
  rfl

/-- A whole packet, from its header byte on. -/
theorem feeds_framed (pkt buf : Vector Byte packetSize) {s : State}
    (hload : s.spi.loadingMem = 0) :
    Feeds (HostProtocol.packetHeader :: pkt.toList) (intactCommand pkt).toList ⟨idleParser buf, s⟩
      ⟨idleParser pkt, ctrlReqNext
        ((intactCommand pkt).elim (acked packetSize s) fun r =>
          execCmd r.1 r.2 (acked packetSize s))⟩ := by
  rw [← iterate_ctrlReqNext]
  obtain ⟨hstep, haccept⟩ :=
    hbcCtrlIrq_push (b := HostProtocol.packetHeader) (p := idleParser buf) hload
  rw [push_header] at hstep haccept
  exact Feeds.cons hstep haccept (feeds_packet pkt (n := 5) (Nat.le_refl _) hload nofun)

/-- Every item is taken as it is meant, and leaves parser and loader idle. -/
theorem Item.feeds (i : Item) (hv : i.Valid) (buf : Vector Byte packetSize) {s : State}
    (hload : s.spi.loadingMem = 0) :
    Feeds i.encode i.commands ⟨idleParser buf, s⟩ ⟨idleParser (i.buffer buf), i.exec s⟩ ∧
      (i.exec s).spi.loadingMem = 0 := by
  cases i with
  | command cmd arg payload =>
    have hpacket := feeds_framed (commandPkt cmd arg) buf hload
    rw [intactCommand_commandPkt] at hpacket
    have hbytes : (ctrlReqNext (execCmd cmd arg (acked packetSize s))).spi.loadingMem
        = payload.length := by
      show (execCmd cmd arg (acked packetSize s)).spi.loadingMem = payload.length
      rw [execCmd_loadingMem, hv]
      show (if _ then _ else s.spi.loadingMem) = _
      rw [hload]
      rfl
    obtain ⟨hpayload, hzero⟩ := feeds_payload payload (idleParser (commandPkt cmd arg)) hbytes
    exact ⟨hpacket.append hpayload, hzero⟩
  | damaged pkt =>
    have hintact : intactCommand pkt = none := if_pos hv
    have hpacket := feeds_framed pkt buf hload
    rw [hintact] at hpacket
    refine ⟨?_, hload⟩
    show Feeds _ [] _ ⟨idleParser pkt, acked (packetSize + 1) s⟩
    rw [← ctrlReqNext_acked]
    exact hpacket
  | noise bytes => exact ⟨feeds_noise bytes hv buf hload, hload⟩

/-! ## The stream -/

/-- The items one behind the other, each with what it does. -/
theorem feeds_items (items : List Item) (hv : ∀ i ∈ items, i.Valid) (buf : Vector Byte packetSize)
    {s : State} (hload : s.spi.loadingMem = 0) :
    Feeds (items.flatMap Item.encode) (items.flatMap Item.commands) ⟨idleParser buf, s⟩
      ⟨idleParser (items.foldl (fun buf i => i.buffer buf) buf), items.foldl (fun s i => i.exec s) s⟩ ∧
      (items.foldl (fun s i => i.exec s) s).spi.loadingMem = 0 := by
  induction items generalizing buf s with
  | nil => exact ⟨Feeds.nil _, hload⟩
  | cons i items ih =>
    obtain ⟨hitem, hzero⟩ := i.feeds (hv i List.mem_cons_self) buf hload
    obtain ⟨hrest, hend⟩ := ih (fun j hj => hv j (List.mem_cons_of_mem i hj)) (i.buffer buf) hzero
    exact ⟨hitem.append hrest, hend⟩

/-- **Deframing.** From an idle parser and loader a stream of items executes exactly the
commands of its command items, once each and in order, with their arguments. The loader gets
exactly the payloads; damaged packets and noise leave nothing but the packet buffer and the
acknowledgements on the line; parser and loader are idle at the end. -/
theorem deframed (items : List Item) (hv : ∀ i ∈ items, i.Valid) (f : Firmware)
    (hidle : f.parser.bytesReq = 0) (hload : f.dev.spi.loadingMem = 0) :
    executed (items.flatMap Item.encode) f = items.flatMap Item.commands ∧
      feed (items.flatMap Item.encode) f
        = ⟨idleParser (items.foldl (fun buf i => i.buffer buf) f.parser.pkt),
            items.foldl (fun s i => i.exec s) f.dev⟩ ∧
      (feed (items.flatMap Item.encode) f).dev.spi.loadingMem = 0 := by
  have hparser : f = ⟨idleParser f.parser.pkt, f.dev⟩ := by
    obtain ⟨⟨pkt, bytesReq, hle⟩, s⟩ := f
    obtain rfl : bytesReq = 0 := hidle
    rfl
  obtain ⟨hfeeds, hzero⟩ := feeds_items items hv f.parser.pkt hload
  rw [← hparser] at hfeeds
  refine ⟨hfeeds.commands, hfeeds.state, ?_⟩
  rw [hfeeds.state]
  exact hzero

end

/-- Noise, a damaged packet and a payload made of header bytes. -/
theorem deframed_header_payload :
    letI := plainDram
    letI := plainProtocol
    executed ([Item.noise [0x00], .damaged (Vector.replicate 6 0xAA),
        .command (HostProtocol.code .hbcTxPacket) 8 (List.replicate 8 0xAA)].flatMap Item.encode)
      (Sys.boot bootState).fw = [(HostProtocol.code .hbcTxPacket, 8)] := by
  let := plainDram
  let := plainProtocol
  have hdamaged : pktCrc (Vector.replicate 6 0xAA) ≠ 0 := by decide +kernel
  have hlength : (List.replicate 8 (0xAA : Byte)).length
      = announcedBytes (HostProtocol.code .hbcTxPacket) 8 := by decide +kernel
  have hv : ∀ i ∈ [Item.noise [0x00], .damaged (Vector.replicate 6 0xAA),
      .command (HostProtocol.code .hbcTxPacket) 8 (List.replicate 8 0xAA)], i.Valid := by
    simp only [List.forall_mem_cons, Item.Valid]
    exact ⟨by decide, hdamaged, hlength, nofun⟩
  exact (deframed _ hv (Sys.boot bootState).fw rfl rfl).1

end HbcMac

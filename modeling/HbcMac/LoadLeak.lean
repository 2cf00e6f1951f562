import HbcMac.Loads

/-!
# What earlier loads leave behind

A sequence of loads on the control port leaves the bytes of its unfinished words in `rd_data`.
They get into the first word of the next load, and into no other.
-/

namespace HbcMac

open LittleEndian

section
variable [Board] [HostProtocol]

/-! ## Commands and the loader -/

/-- Beside what the `switch` does, a command leaves the loader and the memory alone. -/
theorem loader_accepted (cmd : Byte) (arg : Word) (s : State) :
    TxKept ((decodeCmd cmd).elim s fun c => ctrlSwitch c arg s) (execCmd cmd arg s)
      ∧ MemKept ((decodeCmd cmd).elim s fun c => ctrlSwitch c arg s) (execCmd cmd arg s) := by
  obtain ⟨n, d, hregistered⟩ := registered_ack cmd arg s
  have htx := txKept_hbcDataIrq (registered cmd arg s)
  obtain ⟨hreader, -⟩ := readerStep_hbcDataIrq (registered cmd arg s)
  rw [execCmd_eq]
  rw [hregistered] at htx hreader ⊢
  exact ⟨⟨htx.loadAddr, htx.loadingMem, htx.loadIndex, htx.rdData, htx.txPending, htx.pktAddr,
    htx.txAuto, htx.sendPacket, htx.txFlood, htx.doPsocFlash⟩,
    ⟨hreader.cells, hreader.flags, hreader.log⟩⟩

/-- Beside the `switch` a command touches neither loader nor memory. -/
theorem loader_execCmd (cmd : Cmd) (arg : Word) (s : State) :
    TxKept (ctrlSwitch cmd arg s) (execCmd (HostProtocol.code cmd) arg s)
      ∧ MemKept (ctrlSwitch cmd arg s) (execCmd (HostProtocol.code cmd) arg s) := by
  have hkept := loader_accepted (HostProtocol.code cmd) arg s
  rwa [decodeCmd_code, Option.elim_some] at hkept

/-! ## Loads -/

/-- A load as the host sends it: the command and the bytes its argument counts. -/
structure LoadItem where
  forTx : Bool
  payload : List Byte
  fits : payload.length < 2 ^ 32

namespace LoadItem

/-- The command that announces the load. -/
def cmd (l : LoadItem) : Cmd := if l.forTx then .hbcTxPacket else .memLoad

/-- The load as it comes on the control port. -/
def item (l : LoadItem) : Item :=
  .command (HostProtocol.code l.cmd) (BitVec.ofNat 32 l.payload.length) l.payload

/-- What the load writes from address `a` on, with `r` in `rd_data`. -/
def writes (l : LoadItem) (a r : Word) : List (Word × Word) :=
  if l.forTx then
    (a, BitVec.ofNat 32 l.payload.length) :: wordLog (a + 4) (loadedWords r l.payload)
  else wordLog a (loadedWords r l.payload)

end LoadItem

omit [Board] in
/-- The payload is what has been announced. -/
theorem LoadItem.valid (l : LoadItem) : l.item.Valid := by
  have hloads : l.cmd.loads = true := by
    cases hfor : l.forTx <;> simp [cmd, hfor, Cmd.loads]
  show l.payload.length = announcedBytes _ _
  rw [announcedBytes, decodeCmd_code, Option.any_some, hloads, if_pos rfl, BitVec.toNat_ofNat,
    Nat.mod_eq_of_lt l.fits]

/-- The device when the command has been executed and the payload is to come. -/
def LoadItem.opened (l : LoadItem) (s : State) : State :=
  ctrlReqNext (execCmd (HostProtocol.code l.cmd) (BitVec.ofNat 32 l.payload.length)
    (acked packetSize s))

/-- A load starts at the start of a word, and keeps what is in `rd_data`. -/
theorem LoadItem.opened_eq (l : LoadItem) (s : State) :
    (l.opened s).spi.loadIndex = 0 ∧ (l.opened s).spi.rdData = s.spi.rdData ∧
      (l.opened s).spi.loadAddr = (if l.forTx then s.spi.loadAddr + 4 else s.spi.loadAddr) ∧
      (l.opened s).mem.log = s.mem.log ++ (if l.forTx then
        [(s.spi.loadAddr, BitVec.ofNat 32 l.payload.length)] else []) := by
  obtain ⟨htx, hmem⟩ := loader_execCmd l.cmd (BitVec.ofNat 32 l.payload.length) (acked packetSize s)
  have hlog : (l.opened s).mem.log = _ := hmem.log
  have haddr : (l.opened s).spi.loadAddr = _ := htx.loadAddr
  have hindex : (l.opened s).spi.loadIndex = _ := htx.loadIndex
  have hrd : (l.opened s).spi.rdData = _ := htx.rdData
  rw [hlog, haddr, hindex, hrd, LoadItem.cmd]
  cases l.forTx with
  | false => exact ⟨rfl, rfl, rfl, (List.append_nil _).symm⟩
  | true => exact ⟨rfl, rfl, rfl, rfl⟩

/-- The command opens the load, and the payload goes in byte by byte. -/
theorem LoadItem.exec_eq_afterLoad (l : LoadItem) (s : State) :
    l.item.exec s = acked l.payload.length (afterLoad l.payload (l.opened s)) :=
  loadBytes_eq l.payload (l.opened_eq s).1

/-- **One load**: what it writes and what it leaves behind. -/
theorem LoadItem.exec_eq (l : LoadItem) (s : State) :
    (l.item.exec s).mem.log = s.mem.log ++ l.writes s.spi.loadAddr s.spi.rdData
      ∧ (l.item.exec s).spi.rdData = residue s.spi.rdData l.payload := by
  obtain ⟨-, hrd, haddr, hlog⟩ := l.opened_eq s
  rw [l.exec_eq_afterLoad s]
  constructor
  · show ((l.opened s).mem.storeAt (l.opened s).spi.loadAddr
      (loadedWords (l.opened s).spi.rdData l.payload)).log = _
    rw [Mem.storeAt_log, hlog, haddr, hrd, LoadItem.writes, List.append_assoc]
    cases l.forTx with
    | false => rfl
    | true => rfl
  · show residue (l.opened s).spi.rdData l.payload = _
    rw [hrd]

/-! ## Sequences of loads -/

/-- What a sequence of loads leaves in `rd_data`. -/
def leftBehind (r : Word) (ls : List LoadItem) : Word := ls.foldl (fun r l => residue r l.payload) r

/-- What is left in `rd_data` is passed on from load to load. -/
theorem rdData_loads (ls : List LoadItem) (s : State) :
    (ls.foldl (fun s l => l.item.exec s) s).spi.rdData = leftBehind s.spi.rdData ls := by
  induction ls generalizing s with
  | nil => rfl
  | cons l ls ih =>
    rw [List.foldl_cons, ih, (l.exec_eq s).2]
    rfl

omit [Board] [HostProtocol] in
/-- Loads of whole words leave nothing. -/
theorem leftBehind_words {ls : List LoadItem} (h : ∀ l ∈ ls, 4 ∣ l.payload.length) :
    leftBehind 0 ls = 0 := by
  induction ls with
  | nil => rfl
  | cons l ls ih =>
    obtain ⟨hfirst, hrest⟩ := List.forall_mem_cons.mp h
    show leftBehind (residue 0 l.payload) ls = 0
    rw [residue_of_dvd hfirst]
    exact ih hrest

/-- `CMD_MEM_WR_ADDR`. -/
def wrAddrItem (a : Word) : Item := .command (HostProtocol.code .memWrAddr) a []

/-- Between two packets and two loads. -/
structure Firmware.Idle (f : Firmware) : Prop where
  parser : f.parser.bytesReq = 0
  loader : f.dev.spi.loadingMem = 0

/-- The loads `ls`, and the address for the next one. -/
def beforeLoad (ls : List LoadItem) (a : Word) : List Item := ls.map LoadItem.item ++ [wrAddrItem a]

/-- What the load `l` to address `a` writes behind the loads `ls`. -/
def lastWrites (f : Firmware) (ls : List LoadItem) (a : Word) (l : LoadItem) :
    List (Word × Word) :=
  (feed ((beforeLoad ls a ++ [l.item]).flatMap Item.encode) f).dev.mem.log.drop
    (feed ((beforeLoad ls a).flatMap Item.encode) f).dev.mem.log.length

omit [Board] in
theorem valid_wrAddrItem (a : Word) : (wrAddrItem a).Valid := by
  show 0 = announcedBytes _ _
  rw [announcedBytes, decodeCmd_code]
  rfl

omit [Board] in
/-- The items in front of the last load are well formed. -/
theorem valid_beforeLoad (ls : List LoadItem) (a : Word) : ∀ i ∈ beforeLoad ls a, i.Valid := by
  intro i hi
  rcases List.mem_append.mp hi with hi | hi
  · obtain ⟨l, -, rfl⟩ := List.mem_map.mp hi
    exact l.valid
  · rw [List.mem_singleton.mp hi]
    exact valid_wrAddrItem a

/-- The address is set, and `rd_data` stays. -/
theorem wrAddrItem_exec (a : Word) (s : State) :
    ((wrAddrItem a).exec s).spi.loadAddr = a
      ∧ ((wrAddrItem a).exec s).spi.rdData = s.spi.rdData := by
  obtain ⟨htx, -⟩ := loader_execCmd .memWrAddr a (acked packetSize s)
  exact ⟨htx.loadAddr, htx.rdData⟩

/-- Items, one after the other. -/
theorem Firmware.Idle.feeds {f : Firmware} (h : f.Idle) (items : List Item)
    (hvalid : ∀ i ∈ items, i.Valid) :
    Feeds (items.flatMap Item.encode) (items.flatMap Item.commands) f
        ⟨idleParser (items.foldl (fun buf i => i.buffer buf) f.parser.pkt),
          items.foldl (fun s i => i.exec s) f.dev⟩ ∧
      (items.foldl (fun s i => i.exec s) f.dev).spi.loadingMem = 0 := by
  obtain ⟨⟨pkt, bytesReq, hle⟩, s⟩ := f
  obtain rfl : bytesReq = 0 := h.parser
  exact feeds_items items hvalid pkt h.loader

/-- The last load writes its words, the first of them with what was left behind. -/
theorem lastWrites_eq {f : Firmware} (h : f.Idle) (ls : List LoadItem) (a : Word) (l : LoadItem) :
    lastWrites f ls a l = l.writes a (leftBehind f.dev.spi.rdData ls) := by
  have hvalid : ∀ i ∈ beforeLoad ls a ++ [l.item], i.Valid := by
    intro i hi
    rcases List.mem_append.mp hi with hi | hi
    · exact valid_beforeLoad ls a i hi
    · rw [List.mem_singleton.mp hi]
      exact l.valid
  have hbefore := (h.feeds _ (valid_beforeLoad ls a)).1.state
  have hafter := (h.feeds _ hvalid).1.state
  have hstart : (beforeLoad ls a).foldl (fun s i => i.exec s) f.dev
      = (wrAddrItem a).exec (ls.foldl (fun s l => l.item.exec s) f.dev) := by
    rw [beforeLoad, List.foldl_append, List.foldl_map]
    rfl
  rw [lastWrites, hbefore, hafter]
  dsimp only
  rw [List.foldl_append, hstart, List.foldl_cons, List.foldl_nil, (l.exec_eq _).1, List.drop_left,
    (wrAddrItem_exec a _).1, (wrAddrItem_exec a _).2, rdData_loads]

/-! ## Two runs -/

omit [Board] [HostProtocol] in
/-- Writes to successive addresses tell the words. -/
theorem wordLog_inj {a : Word} {ws ws' : List Word} : wordLog a ws = wordLog a ws' ↔ ws = ws' := by
  constructor
  · intro h
    induction ws generalizing a ws' with
    | nil =>
      cases ws' with
      | nil => rfl
      | cons w' ws' => cases h
    | cons w ws ih =>
      cases ws' with
      | nil => cases h
      | cons w' ws' =>
        rw [wordLog, wordLog, List.cons.injEq, Prod.mk.injEq] at h
        rw [h.1.2, ih h.2]
  · rintro rfl
    rfl

omit [Board] [HostProtocol] in
/-- Whole words: only what is ORed into the first of them matters. -/
theorem loadedWords_inj {p : List Byte} (hp : 4 ∣ p.length) (r r' : Word) :
    loadedWords r p = loadedWords r' p ↔
      p = [] ∨ r ||| (wordsOf p).headD 0 = r' ||| (wordsOf p).headD 0 := by
  match p, hp with
  | [], _ => exact ⟨fun _ => .inl rfl, fun _ => rfl⟩
  | [_], h | [_, _], h | [_, _, _], h =>
    simp only [List.length_cons, List.length_nil] at h
    omega
  | b₀ :: b₁ :: b₂ :: b₃ :: p, _ =>
    rw [loadedWords, loadedWords, List.cons.injEq, and_iff_left rfl, wordsOf, List.headD_cons]
    exact ⟨.inr, fun h => h.resolve_left (List.cons_ne_nil _ _)⟩

/-- Two runs with different earlier loads: the last load, of whole words, writes the same in both
exactly when it is empty or what the earlier loads left behind makes no difference to its first
word. -/
theorem last_load_alike_iff {f₁ f₂ : Firmware} (h₁ : f₁.Idle) (h₂ : f₂.Idle)
    (ls₁ ls₂ : List LoadItem) (a : Word) (l : LoadItem) (hn : 4 ∣ l.payload.length) :
    lastWrites f₁ ls₁ a l = lastWrites f₂ ls₂ a l ↔ l.payload = [] ∨
      leftBehind f₁.dev.spi.rdData ls₁ ||| (wordsOf l.payload).headD 0
        = leftBehind f₂.dev.spi.rdData ls₂ ||| (wordsOf l.payload).headD 0 := by
  rw [lastWrites_eq h₁, lastWrites_eq h₂, ← loadedWords_inj hn, LoadItem.writes, LoadItem.writes]
  cases l.forTx with
  | false => exact wordLog_inj
  | true =>
    rw [if_pos rfl, if_pos rfl, List.cons.injEq, and_iff_right rfl]
    exact wordLog_inj

/-- In particular from the start-up, with loads of whole words only. -/
theorem last_load_of_words {f₁ f₂ : Firmware} (h₁ : f₁.Idle) (h₂ : f₂.Idle)
    (hr₁ : f₁.dev.spi.rdData = 0) (hr₂ : f₂.dev.spi.rdData = 0) {ls₁ ls₂ : List LoadItem}
    (hls₁ : ∀ l ∈ ls₁, 4 ∣ l.payload.length) (hls₂ : ∀ l ∈ ls₂, 4 ∣ l.payload.length) (a : Word)
    (l : LoadItem) : lastWrites f₁ ls₁ a l = lastWrites f₂ ls₂ a l := by
  rw [lastWrites_eq h₁, lastWrites_eq h₂, hr₁, hr₂, leftBehind_words hls₁, leftBehind_words hls₂]

end

/-- A load of one byte. -/
def oneByte (b : Byte) : LoadItem := ⟨false, [b], show 1 < 2 ^ 32 by decide⟩

/-- Four zeros. -/
def fourZeros : LoadItem := ⟨false, [0, 0, 0, 0], by decide⟩

/-- Loads of whole words before it do not matter. -/
theorem last_load_alike_words :
    letI := plainDram
    letI := plainProtocol
    lastWrites (Sys.boot bootState).fw [] 0x100 fourZeros
        = lastWrites (Sys.boot bootState).fw [fourZeros, fourZeros] 0x100 fourZeros ↔
      fourZeros.payload = [] ∨
        leftBehind (Sys.boot bootState).fw.dev.spi.rdData []
            ||| (wordsOf fourZeros.payload).headD 0
          = leftBehind (Sys.boot bootState).fw.dev.spi.rdData [fourZeros, fourZeros]
            ||| (wordsOf fourZeros.payload).headD 0 :=
  @last_load_alike_iff plainDram.toBoard plainProtocol _ _ ⟨rfl, rfl⟩ ⟨rfl, rfl⟩ [] _ 0x100
    fourZeros (by decide)

/-- After a load of the byte `FF` a load of four zeros writes `FF`. -/
theorem last_load_leak :
    letI := plainDram
    letI := plainProtocol
    lastWrites (Sys.boot bootState).fw [] 0x100 fourZeros = [(0x100, 0)]
      ∧ lastWrites (Sys.boot bootState).fw [oneByte 0xFF] 0x100 fourZeros = [(0x100, 0xFF)] := by
  have hidle : (Sys.boot bootState).fw.Idle := ⟨rfl, rfl⟩
  rw [@lastWrites_eq plainDram.toBoard plainProtocol _ hidle,
    @lastWrites_eq plainDram.toBoard plainProtocol _ hidle]
  decide

end HbcMac

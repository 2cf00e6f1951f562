import HbcMac.DumpIsolation
import HbcMac.Loads
import HbcMac.Messages

/-!
# Draining the data port

A command registers an acknowledge frame and perhaps a reply or a dump, in whatever order. Data
interrupts alone then write the frame, the reply and the dump, in this order and with one
request for each byte.
-/

namespace HbcMac

open LittleEndian

/-! ## Registering -/

/-- The calls by which a command registers something for the host; a reply has four bytes. -/
inductive Registration
  | ack (frame : Word)
  | reply (data : Word)
  | dump (bytes : ℕ) (fromRx : Bool)
  deriving DecidableEq

/-- What the call does to the registers of the port. -/
def Registration.apply (s : State) : Registration → State
  | ack frame => hbcSpiAck frame s
  | reply data => hbcSpiReply data 4 s
  | dump bytes fromRx => hbcSpiDumpBytes bytes fromRx s

/-- The calls in the order in which the command makes them. -/
def register (calls : List Registration) (s : State) : State := calls.foldl Registration.apply s

/-- What is registered at one time: a frame, perhaps a reply, and perhaps a dump, with its source
and its size. -/
structure Response where
  frame : Word
  reply : Option Word
  dump : Option (Bool × ℕ)

namespace Response

/-- The calls that register a response. -/
def calls (r : Response) : List Registration :=
  .ack r.frame :: (r.reply.toList.map .reply ++ r.dump.toList.map fun d => .dump d.2 d.1)

variable {r : Response} {s t : State}

/-- The calls set registers of their own. -/
theorem apply_comm {x y : Registration} (hx : x ∈ r.calls) (hy : y ∈ r.calls) (s : State) :
    Registration.apply (Registration.apply s x) y
      = Registration.apply (Registration.apply s y) x := by
  simp only [calls, List.mem_cons, List.mem_append, List.mem_map, Option.mem_toList] at hx hy
  rcases hx with rfl | ⟨v, hv, rfl⟩ | ⟨d, hd, rfl⟩
  · rcases hy with rfl | ⟨w, hw, rfl⟩ | ⟨e, he, rfl⟩ <;> rfl
  · rcases hy with rfl | ⟨w, hw, rfl⟩ | ⟨e, he, rfl⟩
    · rfl
    · rw [Option.mem_unique hv hw]
    · rfl
  · rcases hy with rfl | ⟨w, hw, rfl⟩ | ⟨e, he, rfl⟩
    · rfl
    · rfl
    · rw [Option.mem_unique hd he]

/-- The order of the calls makes no difference. -/
theorem register_perm {calls : List Registration} (h : calls.Perm r.calls) (s : State) :
    register calls s = register r.calls s := by
  refine h.foldl_eq' (fun x hx y hy s => ?_) s
  exact apply_comm (h.mem_iff.mp hx) (h.mem_iff.mp hy) s

end Response

/-! ## The bytes to come -/

section
variable [Board]

/-- The bytes of the words at successive addresses. -/
def Dump.image (d : Dump) (m : Mem) : List Byte :=
  (List.range d.bytes).map fun i => byteAt (m.get (d.next^[i / 4] d.start)) (i % 4)

omit [Board] in
/-- A dump of memory goes straight on. -/
theorem Dump.next_mem (start : Word) (n : ℕ) : (Dump.mk false start n).next = advance false := by
  funext a
  rw [Dump.next, advance, if_neg Bool.false_ne_true, if_neg Bool.false_ne_true]

/-- A dump of memory is a run of bytes from its start on. -/
theorem Dump.image_mem (start : Word) (n : ℕ) (m : Mem) :
    (Dump.mk false start n).image m = (List.range n).map (m.byte start) := by
  rw [Dump.image, Dump.next_mem]
  refine List.map_congr_left fun i _ => ?_
  rw [Mem.byte, advance_iterate_plain]

/-- A dump of words that are read as they are in memory. -/
theorem Dump.text_eq_image {d : Dump} {reads : List Fetch} {m : Mem}
    (haddrs : reads.map Prod.fst = d.addrs) (hwords : ∀ r ∈ reads, r.2 = m.get r.1) :
    d.text reads = d.image m := by
  have hmap : reads.map Prod.snd = d.addrs.map m.get := by
    rw [← haddrs, List.map_map]
    exact List.map_congr_left hwords
  refine List.ext_getElem? fun i => ?_
  rw [text, fetchedBytes, hmap, image, List.getElem?_take, List.getElem?_map]
  split
  · next hi =>
    have hword : i / 4 < (d.bytes + 3) / 4 := by omega
    rw [getElem?_flatMap_bytes, List.getElem?_map, addrs, List.getElem?_iterate _ _ _ _ hword,
      List.getElem?_range hi]
    rfl
  · next hi =>
    rw [List.getElem?_eq_none (by rw [List.length_range]; omega)]
    rfl

/-- The bytes of a message, its dump being read from `mem`. -/
def Msg.wire (m : Msg) (mem : Mem) : List Byte := m.text ++ m.dump.elim [] fun d => d.image mem

/-- A message is complete when exactly these bytes have come. -/
theorem Msg.Complete.wire {m : Msg} {mem : Mem} {bs : List Byte} {reads : List Fetch}
    (h : m.Complete bs reads) (hwords : ∀ r ∈ reads, r.2 = mem.get r.1) : bs = m.wire mem := by
  obtain ⟨haddrs, rfl⟩ := h
  rw [Msg.wire]
  cases hd : m.dump with
  | none => rfl
  | some d =>
    rw [hd] at haddrs
    simp only [Option.elim_some, Dump.text_eq_image haddrs hwords]

omit [Board] in
/-- The dump as it will be read from state `s` on. -/
def dumpFrom (s : State) (d : Bool × ℕ) : Dump where
  fromRx := d.1
  start := if d.1 then s.rx.rdBufAddr else s.spi.dumpAddr
  bytes := d.2

namespace Response

variable {r : Response} {s t : State}

omit [Board] in
/-- The response as the message it becomes, its dump placed where the state has it. -/
def msg (r : Response) (s : State) : Msg := ⟨r.frame, r.reply, r.dump.map (dumpFrom s)⟩

/-- The bytes for the host: frame, reply and dump. -/
def wire (r : Response) (s : State) : List Byte := (r.msg s).wire s.mem

omit [Board] in
/-- From an idle port the calls, in any order, put the message into the registers. -/
theorem speaking (hidle : spiPending s = 0) (ht : t.spi = (register r.calls s).spi) :
    Speaking (r.msg t) [] [] [] t := by
  obtain ⟨frame, reply, dump⟩ := r
  rw [spiPending] at hidle
  have hack : t.spi.ackBytes = 4 ∧ t.spi.ackData = frame := by
    rw [ht]
    cases reply <;> cases dump <;> exact ⟨rfl, rfl⟩
  have hreply : t.spi.replyBytes = reply.elim 0 fun _ => 4 := by
    rw [ht]
    cases reply with
    | none =>
      have hzero : s.spi.replyBytes = 0 := by omega
      cases dump <;> exact hzero
    | some w => cases dump <;> rfl
  have hdump : t.spi.dumpingMem = dump.elim 0 Prod.snd := by
    rw [ht]
    cases dump with
    | none =>
      have hzero : s.spi.dumpingMem = 0 := by omega
      cases reply <;> exact hzero
    | some d => cases reply <;> rfl
  refine ⟨List.nil_prefix, ?_, fun _ => ⟨hack.2, ?_⟩, fun hne => ?_, fun _ => rfl, fun hno => ?_,
    fun d hd => ?_⟩
  · rw [hack.1, hreply, Msg.length_text]
    cases reply <;> rfl
  · rw [hack.1]
    rfl
  · cases reply with
    | none => exact absurd hreply hne
    | some w =>
      rw [hreply, ht]
      cases dump <;> exact ⟨rfl, rfl, Nat.le_refl _⟩
  · cases dump with
    | none => exact ⟨hdump, rfl, rfl⟩
    | some d => cases hno
  · cases dump with
    | none => cases hd
    | some d =>
      obtain rfl := Option.some.inj hd
      have hrx : t.spi.dumpHbcRx = d.1 := by rw [ht]; cases reply <;> rfl
      have hidx : t.spi.dumpIndex = 0 := by rw [ht]; cases reply <;> rfl
      refine Dumping.start hrx hidx hdump ?_
      rw [dumpCursor, hrx, if_pos hidx]
      rfl

end Response

end

/-! ## The interrupts -/

section
variable [Board] {s t : State}

/-- Induction on the bytes still to come. -/
@[elab_as_elim]
theorem drain_induction {motive : State → Prop} (idle : ∀ s, spiPending s = 0 → motive s)
    (next : ∀ s, spiPending s ≠ 0 → motive (hbcDataIrq s) → motive s) (s : State) : motive s := by
  induction hn : spiPending s generalizing s with
  | zero => exact idle s hn
  | succ n ih =>
    have hne : spiPending s ≠ 0 := by omega
    have hcount := (hbcDataIrq_portWrite hne).2
    exact next s hne (ih _ (by omega))

/-- As many data interrupts as there are bytes to come. -/
def drained (s : State) : State := hbcDataIrq^[spiPending s] s

/-- An idle port has nothing to give. -/
theorem drained_idle (h : spiPending s = 0) : drained s = s := by
  rw [drained, h]
  rfl

/-- One interrupt more or less at the front. -/
theorem drained_next (h : spiPending s ≠ 0) : drained s = drained (hbcDataIrq s) := by
  rw [drained, drained, ← (hbcDataIrq_portWrite h).2, Function.iterate_succ_apply]

/-- Afterwards nothing is pending. -/
theorem spiPending_drained (s : State) : spiPending (drained s) = 0 := by
  induction s using drain_induction with
  | idle s h => rwa [drained_idle h]
  | next s h ih => rwa [drained_next h]

/-- Further interrupts find nothing to do. -/
theorem iterate_hbcDataIrq {k : ℕ} (h : spiPending s ≤ k) : hbcDataIrq^[k] s = drained s := by
  obtain ⟨n, rfl⟩ := Nat.exists_eq_add_of_le h
  rw [Nat.add_comm, Function.iterate_add_apply]
  exact Function.iterate_fixed (hbcDataIrq_idle (spiPending_drained s)) n

/-- What each interrupt keeps stays till the end. -/
theorem drained_keeps {P : State → Prop} (h : P s) (hstep : ∀ t, P t → P (hbcDataIrq t)) :
    P (drained s) :=
  Function.Iterate.rec P h hstep (spiPending s)

/-- One interrupt moves `dump_addr` on with the fourth byte of a word. -/
theorem hbcDataIrq_dumpAddr (s : State) :
    ((hbcDataIrq s).spi.dumpAddr = s.spi.dumpAddr ∧
      (hbcDataIrq s).spi.dumpIndex = s.spi.dumpIndex ∧
      (hbcDataIrq s).spi.dumpingMem = s.spi.dumpingMem) ∨
    s.spi.dumpingMem ≠ 0 ∧ (hbcDataIrq s).spi.dumpingMem = s.spi.dumpingMem - 1 ∧
      (hbcDataIrq s).spi.dumpIndex
        = (if s.spi.dumpIndex + 1 = 4 then 0 else s.spi.dumpIndex + 1) ∧
      (hbcDataIrq s).spi.dumpAddr
        = (if s.spi.dumpIndex + 1 = 4 then s.spi.dumpAddr + 4 else s.spi.dumpAddr) := by
  by_cases hack : s.spi.ackBytes = 0
  · by_cases hreply : s.spi.replyBytes = 0
    · by_cases hdump : s.spi.dumpingMem = 0
      · rw [hbcDataIrq_idle (by rw [spiPending]; omega)]
        exact .inl ⟨rfl, rfl, rfl⟩
      · rw [hbcDataIrq_dump hack hreply hdump, dataDump_eq]
        exact .inr ⟨hdump, rfl, rfl, rfl⟩
    · rw [hbcDataIrq_reply hack hreply]
      exact .inl ⟨rfl, rfl, rfl⟩
  · rw [hbcDataIrq_ack hack]
    exact .inl ⟨rfl, rfl, rfl⟩

/-- Where `dump_addr` will be when the dump is over: behind its last whole word. -/
def dumpEnd (s : State) : Word :=
  if s.spi.dumpingMem = 0 then s.spi.dumpAddr
  else txAddr s.spi.dumpAddr ((s.spi.dumpIndex + s.spi.dumpingMem) / 4)

/-- The bytes of a word are counted up to four. -/
def DumpIndexed (s : State) : Prop := s.spi.dumpingMem ≠ 0 → s.spi.dumpIndex < 4

/-- A dump stays on its way to the same place. -/
theorem dumpEnd_hbcDataIrq (h : DumpIndexed s) :
    DumpIndexed (hbcDataIrq s) ∧ dumpEnd (hbcDataIrq s) = dumpEnd s := by
  unfold DumpIndexed dumpEnd at *
  rcases hbcDataIrq_dumpAddr s with ⟨haddr, hidx, hdump⟩ | ⟨hpos, hdump, hidx, haddr⟩
  · rw [haddr, hidx, hdump]
    exact ⟨h, rfl⟩
  · have hindex := h hpos
    rw [haddr, hidx, hdump, if_neg hpos]
    by_cases hlast : s.spi.dumpIndex + 1 = 4
    · have hwords : (s.spi.dumpIndex + s.spi.dumpingMem) / 4 = (s.spi.dumpingMem - 1) / 4 + 1 := by
        omega
      simp only [if_pos hlast, Nat.zero_add, hwords, txAddr_four]
      refine ⟨fun _ => by decide, ite_eq_right_iff.mpr fun hzero => ?_⟩
      rw [hzero, txAddr_zero]
    · have hwords : s.spi.dumpIndex + 1 + (s.spi.dumpingMem - 1)
          = s.spi.dumpIndex + s.spi.dumpingMem := by omega
      simp only [if_neg hlast, hwords]
      refine ⟨fun _ => by omega, ite_eq_right_iff.mpr fun hzero => ?_⟩
      have hnone : (s.spi.dumpIndex + s.spi.dumpingMem) / 4 = 0 := by omega
      rw [hnone, txAddr_zero]

omit [Board] in
/-- Without a dump the address is where it is. -/
theorem dumpEnd_idle (h : spiPending s = 0) : dumpEnd s = s.spi.dumpAddr := by
  rw [spiPending] at h
  exact if_pos (by omega)

/-- And there it stands when the port has been emptied. -/
theorem drained_dumpAddr (h : DumpIndexed s) : (drained s).spi.dumpAddr = dumpEnd s := by
  have hend := drained_keeps (P := fun t => DumpIndexed t ∧ dumpEnd t = dumpEnd s) ⟨h, rfl⟩
    fun t ht => ⟨(dumpEnd_hbcDataIrq ht.1).1, (dumpEnd_hbcDataIrq ht.1).2.trans ht.2⟩
  rw [← hend.2, dumpEnd_idle (spiPending_drained s)]

/-- The interrupts write the pending bytes one after the other, whatever these are. -/
theorem drain_trace (s : State) : ∃ bs : List Byte, bs.length = spiPending s ∧
    ∀ k, (hbcDataIrq^[k] s).out = s.out ++ (bs.take k).flatMap portWrite := by
  induction s using drain_induction with
  | idle s h =>
    refine ⟨[], h.symm, fun k => ?_⟩
    rw [Function.iterate_fixed (hbcDataIrq_idle h) k, List.take_nil]
    exact (List.append_nil _).symm
  | next s h ih =>
    obtain ⟨⟨b, hout⟩, hcount⟩ := hbcDataIrq_portWrite h
    obtain ⟨bs, hlen, htrace⟩ := ih
    refine ⟨b :: bs, ?_, fun k => ?_⟩
    · rw [List.length_cons, hlen, hcount]
    · cases k with
      | zero => exact (List.append_nil _).symm
      | succ k =>
        rw [Function.iterate_succ_apply, htrace, hout, List.take_succ_cons, List.flatMap_cons,
          List.append_assoc]

omit [Board] in
/-- What is written byte by byte is what the host reads. -/
theorem dataBytes_portWrites (bs : List Byte) : dataBytes (bs.flatMap portWrite) = bs := by
  induction bs with
  | nil => rfl
  | cons b bs ih =>
    rw [List.flatMap_cons, dataBytes_append, ih]
    rfl

/-- The port reads the memory and does not write it. -/
theorem mem_get_hbcDataIrq (s : State) : (hbcDataIrq s).mem.get = s.mem.get := by
  funext a
  exact congrFun (readerStep_hbcDataIrq s).1.cells _

/-- A dump keeps its bytes. -/
theorem image_hbcDataIrq (d : Dump) (s : State) : d.image (hbcDataIrq s).mem = d.image s.mem := by
  rw [Dump.image, mem_get_hbcDataIrq]
  rfl

/-- A data interrupt reads a word as it is in memory. -/
theorem word_dataReads {f : Fetch} (h : f ∈ dataReads s) : f.2 = s.mem.get f.1 := by
  unfold dataReads dumpReads at h
  split at h
  · split at h
    · rw [List.mem_singleton.mp h]
    · cases h
  · cases h

/-- The words of a dump are read as they are in memory: nobody else is there to write. -/
theorem words_hbcDataIrq {reads : List Fetch} (h : ∀ f ∈ reads, f.2 = s.mem.get f.1) :
    ∀ f ∈ reads ++ dataReads s, f.2 = (hbcDataIrq s).mem.get f.1 := by
  intro f hf
  rw [mem_get_hbcDataIrq]
  rcases List.mem_append.mp hf with hf | hf
  · exact h f hf
  · exact word_dataReads hf

/-- A message in the registers is sent to its end. -/
theorem Speaking.drained {m : Msg} {said dumped : List Byte} {reads : List Fetch} {pre : List Byte}
    (h : Speaking m said dumped reads s) (hdata : dataBytes s.out = pre ++ (said ++ dumped))
    (hwords : ∀ f ∈ reads, f.2 = s.mem.get f.1) :
    dataBytes (drained s).out = pre ++ m.wire s.mem := by
  induction s using drain_induction generalizing said dumped reads with
  | idle s hidle =>
    rw [drained_idle hidle, hdata, (h.complete hidle).wire hwords]
  | next s hne ih =>
    obtain ⟨b, said', dumped', hbyte, hcat, hnext⟩ := h.next hne
    have hwire : m.wire (hbcDataIrq s).mem = m.wire s.mem := by
      simp only [Msg.wire, image_hbcDataIrq]
    rw [drained_next hne, ← hwire]
    refine ih hnext ?_ (words_hbcDataIrq hwords)
    rw [hbyte, hdata, hcat, List.append_assoc]

/-- The bytes the dump branch writes till the port is idle. -/
def dumpedBytes (s : State) : List Byte :=
  (List.range (spiPending s)).flatMap fun i => dumpByte (hbcDataIrq^[i] s)

/-- The first of the bytes still to be dumped. -/
theorem dumpedBytes_next (h : spiPending s ≠ 0) :
    dumpedBytes s = dumpByte s ++ dumpedBytes (hbcDataIrq s) := by
  rw [dumpedBytes, dumpedBytes, ← (hbcDataIrq_portWrite h).2, List.range_succ_eq_map,
    List.flatMap_cons, List.flatMap_map]
  rfl

/-- A message goes on with the next interrupt. -/
theorem Speaking.next_dumped {m : Msg} {said dumped : List Byte} {reads : List Fetch}
    (h : Speaking m said dumped reads s) (hne : spiPending s ≠ 0) :
    ∃ said', Speaking m said' (dumped ++ dumpByte s) (reads ++ dataReads s) (hbcDataIrq s) := by
  rw [spiPending] at hne
  by_cases hack : s.spi.ackBytes = 0
  · by_cases hreply : s.spi.replyBytes = 0
    · have hdump : s.spi.dumpingMem ≠ 0 := by omega
      obtain ⟨b, hdata, hnext⟩ := h.next_dump hack hreply hdump
      have hbyte : dumpByte s = [b] := by
        rw [dumpByte, if_pos ⟨hack, hreply, hdump⟩, hdata, List.drop_left]
      rw [hbyte]
      exact ⟨said, hnext⟩
    · obtain ⟨b, -, hnext⟩ := h.next_reply hack hreply
      rw [dumpByte_none (.inr hreply), List.append_nil]
      exact ⟨_, hnext⟩
  · obtain ⟨b, -, hnext⟩ := h.next_ack hack
    rw [dumpByte_none (.inl hack), List.append_nil]
    exact ⟨_, hnext⟩

/-- With nothing pending the dump is over. -/
theorem Speaking.dumped_complete {m : Msg} {said dumped : List Byte} {reads : List Fetch}
    (h : Speaking m said dumped reads s) (hidle : spiPending s = 0)
    (hwords : ∀ f ∈ reads, f.2 = s.mem.get f.1) :
    dumped = m.dump.elim [] fun d => d.image s.mem := by
  cases hd : m.dump with
  | none => exact (h.silent hd).2.1
  | some d =>
    rw [spiPending] at hidle
    obtain ⟨haddrs, htext⟩ := (h.dump d hd).complete (by omega)
    rw [htext, Dump.text_eq_image haddrs hwords, Option.elim_some]

/-- They are the bytes of the words at successive addresses, as memory holds them. -/
theorem Speaking.dumpedBytes {m : Msg} {said dumped : List Byte} {reads : List Fetch}
    (h : Speaking m said dumped reads s) (hwords : ∀ f ∈ reads, f.2 = s.mem.get f.1) :
    dumped ++ dumpedBytes s = m.dump.elim [] fun d => d.image s.mem := by
  induction s using drain_induction generalizing said dumped reads with
  | idle s hidle =>
    have hnone : HbcMac.dumpedBytes s = [] := by
      rw [HbcMac.dumpedBytes, hidle]
      rfl
    rw [hnone, List.append_nil]
    exact h.dumped_complete hidle hwords
  | next s hne ih =>
    obtain ⟨said', hnext⟩ := h.next_dumped hne
    rw [dumpedBytes_next hne, ← List.append_assoc, ih hnext (words_hbcDataIrq hwords)]
    simp only [image_hbcDataIrq]

/-- What is dumped for a message is its image. -/
theorem Starts.dumpedBytes {m : Msg} (h : Starts m s t) (hidle : spiPending s = 0) :
    dumpedBytes t = m.dump.elim [] fun d => d.image t.mem :=
  (h.speaking hidle).dumpedBytes nofun

/-- **Drain order.** On an idle port an acknowledge frame is registered and, in any order, perhaps
a reply and perhaps a dump. Then the data interrupts write the frame, the reply and the dump byte
by byte, each with its request, and after the last byte nothing. -/
theorem drain_order {r : Response} {calls : List Registration} (hidle : spiPending s = 0)
    (hcalls : calls.Perm r.calls) (ht : t.spi = (register calls s).spi) (k : ℕ) :
    (hbcDataIrq^[k] t).out = t.out ++ ((r.wire t).take k).flatMap portWrite := by
  rw [Response.register_perm hcalls] at ht
  obtain ⟨bs, hlen, htrace⟩ := drain_trace t
  have hall : (drained t).out = t.out ++ bs.flatMap portWrite := by
    rw [drained, htrace, ← hlen, List.take_length]
  have hbytes : dataBytes (drained t).out = dataBytes t.out ++ r.wire t :=
    (Response.speaking hidle ht).drained (List.append_nil _).symm nofun
  rw [hall, dataBytes_append, dataBytes_portWrites] at hbytes
  rw [htrace, List.append_cancel_left hbytes]

end

/-- The receive ring up to its end, and what follows at its start. -/
def ringEnd : State := { bootState with
  mem.cells := fun a => if a = memSize - 4 then 0x04030201 else if a = memRxBuf then 0x0605 else 0
  rx.rdBufAddr := memSize - 4 }

/-- A response of all three parts, the dump from the receiver and of no whole number of words. -/
def sixFromRx : Response := ⟨0x33020155, some 0x0D0C0B0A, some (true, 6)⟩

/-- A dump of six bytes round the end of the ring, registered before the reply and the frame. -/
theorem drain_order_ring_end :
    letI := plainDram
    (hbcDataIrq^[20] (register [.dump 6 true, .reply 0x0D0C0B0A, .ack 0x33020155] ringEnd)).out
      = ([0x55, 1, 2, 0x33, 10, 11, 12, 13, 1, 2, 3, 4, 5, 6].take 20).flatMap portWrite := by
  let := plainDram
  exact @drain_order plainDram.toBoard ringEnd _ sixFromRx
    [.dump 6 true, .reply 0x0D0C0B0A, .ack 0x33020155] rfl (by decide) rfl 20

end HbcMac

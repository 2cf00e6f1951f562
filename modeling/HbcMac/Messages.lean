import HbcMac.Lib.Run
import HbcMac.PortSteps

/-!
# Whole messages

The bytes on the data port are one whole message after the other as long as nothing is
registered while bytes of an earlier message are pending, and nobody moves the reader while
received data is dumped. The registers hold one message only, and the main loop looks at no
more than the dump before it forwards the next packet.
-/

namespace HbcMac

open LittleEndian

/-! ## Messages as bytes -/

namespace Msg

variable {m : Msg}

/-- The frame and the reply. -/
def text (m : Msg) : List Byte := bytes m.frame ++ m.reply.elim [] bytes

/-- The bytes of a message, those of its dump included. -/
def length (m : Msg) : ℕ := m.text.length + m.dump.elim 0 Dump.bytes

/-- The bytes `bs` are the whole message, the words of its dump being read as in `reads`. -/
def Complete (m : Msg) (bs : List Byte) (reads : List Fetch) : Prop :=
  reads.map Prod.fst = m.dump.elim [] Dump.addrs ∧
    bs = m.text ++ m.dump.elim [] fun d => d.text reads

/-- The bytes `bs` are the whole message but for the last `pending` ones. -/
def Begun (m : Msg) (bs : List Byte) (reads : List Fetch) (pending : ℕ) : Prop :=
  ∃ rest more, m.Complete (bs ++ rest) (reads ++ more) ∧ rest.length = pending

/-- A complete message is as long as it says. -/
theorem Complete.length {bs : List Byte} {reads : List Fetch} (h : m.Complete bs reads) :
    bs.length = m.length := by
  obtain ⟨haddrs, rfl⟩ := h
  rw [List.length_append, Msg.length]
  cases hd : m.dump with
  | none => rfl
  | some d =>
    rw [hd] at haddrs
    have hlen : (d.text reads).length = d.bytes := Dump.length_text haddrs
    simp only [Option.elim_some, hlen]

/-- A frame, and perhaps a reply. -/
theorem length_text (m : Msg) : m.text.length = m.reply.elim 4 fun _ => 8 := by
  cases h : m.reply with
  | none => simp only [text, h, Option.elim_none, List.append_nil, length_bytes]
  | some w => simp only [text, h, Option.elim_some, List.length_append, length_bytes]

/-- The frame comes first. -/
theorem getElem?_frame (m : Msg) {i : ℕ} (hi : i < 4) : m.text[i]? = some (byteAt m.frame i) := by
  rw [text, List.getElem?_append_left (by rwa [length_bytes]), getElem?_bytes _ _ hi]

/-- The reply comes behind it. -/
theorem getElem?_reply {w : Word} (h : m.reply = some w) {i : ℕ} (hi : i < 4) :
    m.text[4 + i]? = some (byteAt w i) := by
  have hle : (bytes m.frame).length ≤ 4 + i := Nat.le_add_right 4 i
  rw [text, h, List.getElem?_append_right hle, length_bytes, Nat.add_sub_cancel_left]
  exact getElem?_bytes w i hi

end Msg

/-- The bytes are the messages, one after the other, with the words read for their dumps. -/
inductive Told : List Msg → List Byte → List Fetch → Prop
  | nil : Told [] [] []
  | snoc {ms : List Msg} {m : Msg} {pre bs : List Byte} {before reads : List Fetch}
      (htold : Told ms pre before) (hm : m.Complete bs reads) :
      Told (ms ++ [m]) (pre ++ bs) (before ++ reads)

/-- The bytes are the messages, the last one perhaps only up to `pending` bytes. -/
def Intact (ms : List Msg) (bs : List Byte) (reads : List Fetch) (pending : ℕ) : Prop :=
  (pending = 0 ∧ Told ms bs reads) ∨
    ∃ told m pre cur before part, ms = told ++ [m] ∧ bs = pre ++ cur ∧ reads = before ++ part ∧
      Told told pre before ∧ m.Begun cur part pending

/-- What has been told has the length of its messages. -/
theorem Told.length {ms : List Msg} {bs : List Byte} {reads : List Fetch} (h : Told ms bs reads) :
    bs.length = (ms.map Msg.length).sum := by
  induction h with
  | nil => rfl
  | snoc htold hm ih =>
    rw [List.length_append, ih, hm.length, List.map_append, List.sum_append, List.map_singleton,
      List.sum_singleton]

/-- What is pending is missing from it. -/
theorem Intact.length {ms : List Msg} {bs : List Byte} {reads : List Fetch} {pending : ℕ}
    (h : Intact ms bs reads pending) : bs.length + pending = (ms.map Msg.length).sum := by
  rcases h with ⟨rfl, htold⟩ | ⟨told, m, pre, cur, before, part, rfl, rfl, rfl, htold, hm⟩
  · exact htold.length
  · obtain ⟨rest, more, hcomplete, rfl⟩ := hm
    have hlen := hcomplete.length
    rw [List.length_append] at hlen
    rw [List.length_append, htold.length, List.map_append, List.sum_append, List.map_singleton,
      List.sum_singleton]
    omega

/-! ## The message in the registers -/

/-- Of the message `m` the bytes `said` of its text and `dumped` of its dump have been
written, and the rest is in the registers. -/
structure Speaking (m : Msg) (said dumped : List Byte) (reads : List Fetch) (s : State) :
    Prop where
  text : said <+: m.text
  left : said.length + (s.spi.ackBytes + s.spi.replyBytes) = m.text.length
  ack : s.spi.ackBytes ≠ 0 → s.spi.ackData = m.frame ∧ said.length + s.spi.ackBytes = 4
  reply : s.spi.replyBytes ≠ 0 →
    m.reply = some s.spi.replyData ∧ s.spi.replySize = 4 ∧ s.spi.replyBytes ≤ 4
  first : s.spi.ackBytes + s.spi.replyBytes ≠ 0 → dumped = []
  silent : m.dump = none → s.spi.dumpingMem = 0 ∧ dumped = [] ∧ reads = []
  dump : ∀ d, m.dump = some d → Dumping d dumped reads s

namespace Speaking

variable {m : Msg} {said dumped : List Byte} {reads : List Fetch} {s s' : State}

/-- What leaves port and cursor alone leaves the message where it is. -/
theorem kept (h : Speaking m said dumped reads s) (hport : PortKept s s')
    (hrd : s.spi.dumpingMem ≠ 0 → s.spi.dumpHbcRx = true → s'.rx.rdBufAddr = s.rx.rdBufAddr) :
    Speaking m said dumped reads s' := by
  obtain ⟨h1, h2, h3, h4, h5, h6, h7⟩ := h
  refine ⟨h1, ?_, ?_, ?_, ?_, ?_, fun d hd => (h7 d hd).kept hport hrd⟩
  · rw [hport.ackBytes, hport.replyBytes]
    exact h2
  · rw [hport.ackBytes, hport.ackData]
    exact h3
  · rw [hport.replyBytes, hport.replyData, hport.replySize]
    exact h4
  · rw [hport.ackBytes, hport.replyBytes]
    exact h5
  · rw [hport.dumpingMem]
    exact h6

/-- The pending bytes complete the message. -/
theorem begun (h : Speaking m said dumped reads s) :
    m.Begun (said ++ dumped) reads (spiPending s) := by
  obtain ⟨tail, htail⟩ := h.text
  have hleft := h.left
  rw [← htail, List.length_append] at hleft
  -- the text comes first, and a byte of the dump only after all of it
  have hjoin (rest : List Byte) :
      said ++ dumped ++ (tail ++ rest) = m.text ++ (dumped ++ rest) := by
    by_cases hzero : s.spi.ackBytes + s.spi.replyBytes = 0
    · have hnil : tail = [] := List.eq_nil_of_length_eq_zero (by omega)
      rw [hnil, List.append_nil] at htail
      rw [hnil, htail, List.nil_append, List.append_assoc]
    · rw [h.first hzero, ← htail, List.append_nil, List.nil_append, List.append_assoc]
  cases hd : m.dump with
  | none =>
    obtain ⟨hdump, hdumped, hreads⟩ := h.silent hd
    refine ⟨tail, [], ⟨?_, ?_⟩, ?_⟩
    · rw [hreads, hd]
      rfl
    · have hall := hjoin []
      rw [List.append_nil, hdumped] at hall
      rw [hdumped, hall, hd]
      rfl
    · rw [spiPending, hdump]
      omega
  | some d =>
    obtain ⟨rest, more, haddrs, htext, hrest⟩ := (h.dump d hd).completes
    refine ⟨tail ++ rest, more, ⟨?_, ?_⟩, ?_⟩
    · rw [hd]
      exact haddrs
    · rw [hjoin, htext, hd]
      rfl
    · rw [List.length_append, hrest, spiPending]
      omega

/-- With nothing pending it is complete. -/
theorem complete (h : Speaking m said dumped reads s) (hidle : spiPending s = 0) :
    m.Complete (said ++ dumped) reads := by
  rw [spiPending] at hidle
  have hleft := h.left
  have hsaid : said = m.text := h.text.eq_of_length (by omega)
  cases hd : m.dump with
  | none =>
    obtain ⟨-, hdumped, hreads⟩ := h.silent hd
    refine ⟨?_, ?_⟩
    · rw [hreads, hd]
      rfl
    · rw [hsaid, hdumped, hd]
      rfl
  | some d =>
    obtain ⟨haddrs, htext⟩ := (h.dump d hd).complete (by omega)
    refine ⟨?_, ?_⟩
    · rw [hd]
      exact haddrs
    · rw [hsaid, htext, hd]
      rfl

section
variable [Board]

/-- The next byte of the frame. -/
theorem next_ack (h : Speaking m said dumped reads s) (hack : s.spi.ackBytes ≠ 0) :
    ∃ b, dataBytes (hbcDataIrq s).out = dataBytes s.out ++ [b] ∧
      Speaking m (said ++ [b]) dumped (reads ++ dataReads s) (hbcDataIrq s) := by
  obtain ⟨hframe, hfour⟩ := h.ack hack
  have hleft := h.left
  have hreads : dataReads s = [] := if_neg fun hno => hack hno.1
  have hplace : replySize - s.spi.ackBytes = said.length := by
    rw [replySize]
    omega
  rw [hreads, List.append_nil, hbcDataIrq_ack hack, hframe, hplace]
  refine ⟨_, dataBytes_portWrite _ _, ?_⟩
  have hlen : (said ++ [byteAt m.frame said.length]).length = said.length + 1 := List.length_append
  refine ⟨?_, ?_, fun _ => ⟨hframe, ?_⟩, h.reply, fun _ => h.first (by omega), h.silent,
    fun d hd => ?_⟩
  · exact Stream.prefix_snoc h.text (m.getElem?_frame (by omega))
  · rw [hlen]
    dsimp only
    omega
  · rw [hlen]
    dsimp only
    omega
  · obtain ⟨h1, h2, h3, h4, h5, h6, h7, h8⟩ := h.dump d hd
    exact ⟨h1, h2, h3, h4, h5, h6, h7, h8⟩

/-- The next byte of the reply. -/
theorem next_reply (h : Speaking m said dumped reads s) (hack : s.spi.ackBytes = 0)
    (hreply : s.spi.replyBytes ≠ 0) :
    ∃ b, dataBytes (hbcDataIrq s).out = dataBytes s.out ++ [b] ∧
      Speaking m (said ++ [b]) dumped (reads ++ dataReads s) (hbcDataIrq s) := by
  obtain ⟨hdata, hsize, hfour⟩ := h.reply hreply
  have hleft := h.left
  have hreads : dataReads s = [] := if_neg fun hno => hreply hno.2.1
  rw [m.length_text, hdata, Option.elim_some] at hleft
  have hplace : said.length = 4 + (4 - s.spi.replyBytes) := by omega
  rw [hreads, List.append_nil, hbcDataIrq_reply hack hreply, hsize]
  refine ⟨_, dataBytes_portWrite _ _, ?_⟩
  have hlen : (said ++ [byteAt s.spi.replyData (4 - s.spi.replyBytes)]).length = said.length + 1 :=
    List.length_append
  refine ⟨?_, ?_, fun hack' => absurd hack hack', fun _ => ⟨hdata, hsize, ?_⟩,
    fun _ => h.first (by omega), h.silent, fun d hd => ?_⟩
  · refine Stream.prefix_snoc h.text ?_
    rw [hplace]
    exact Msg.getElem?_reply hdata (by omega)
  · rw [hlen, m.length_text, hdata, Option.elim_some]
    dsimp only
    omega
  · dsimp only
    omega
  · obtain ⟨h1, h2, h3, h4, h5, h6, h7, h8⟩ := h.dump d hd
    exact ⟨h1, h2, h3, h4, h5, h6, h7, h8⟩

/-- The next byte of the dump. -/
theorem next_dump (h : Speaking m said dumped reads s) (hack : s.spi.ackBytes = 0)
    (hreply : s.spi.replyBytes = 0) (hdump : s.spi.dumpingMem ≠ 0) :
    ∃ b, dataBytes (hbcDataIrq s).out = dataBytes s.out ++ [b] ∧
      Speaking m said (dumped ++ [b]) (reads ++ dataReads s) (hbcDataIrq s) := by
  have hreads : dataReads s = dumpReads s := if_pos ⟨hack, hreply, hdump⟩
  rw [hbcDataIrq_dump hack hreply hdump, hreads]
  cases hd : m.dump with
  | none => exact absurd (h.silent hd).1 hdump
  | some d =>
    obtain ⟨b, hdata, hnext⟩ := (h.dump d hd).byte hdump
    refine ⟨b, hdata, ?_⟩
    have hspi : (dataDump s).spi.ackBytes = s.spi.ackBytes ∧
        (dataDump s).spi.replyBytes = s.spi.replyBytes := by
      rw [dataDump_eq]
      exact ⟨rfl, rfl⟩
    refine ⟨h.text, ?_, fun hne => ?_, fun hne => ?_, fun hne => ?_, fun hno => ?_, fun d' hd' => ?_⟩
    · rw [hspi.1, hspi.2]
      exact h.left
    · exact absurd (hspi.1.trans hack) hne
    · exact absurd (hspi.2.trans hreply) hne
    · rw [hspi.1, hspi.2, hack, hreply] at hne
      exact absurd rfl hne
    · rw [hd] at hno
      cases hno
    · rw [hd] at hd'
      obtain rfl := Option.some.inj hd'
      exact hnext

/-- An interrupt says the next byte of it. -/
theorem next (h : Speaking m said dumped reads s) (hpending : spiPending s ≠ 0) :
    ∃ b said' dumped', dataBytes (hbcDataIrq s).out = dataBytes s.out ++ [b] ∧
      said' ++ dumped' = said ++ dumped ++ [b] ∧
      Speaking m said' dumped' (reads ++ dataReads s) (hbcDataIrq s) := by
  rw [spiPending] at hpending
  by_cases htext : s.spi.ackBytes + s.spi.replyBytes = 0
  · obtain ⟨b, hdata, hnext⟩ := h.next_dump (by omega) (by omega) (by omega)
    exact ⟨b, said, dumped ++ [b], hdata, (List.append_assoc _ _ _).symm, hnext⟩
  · have hdumped := h.first htext
    have hone : ∃ b, dataBytes (hbcDataIrq s).out = dataBytes s.out ++ [b] ∧
        Speaking m (said ++ [b]) dumped (reads ++ dataReads s) (hbcDataIrq s) := by
      by_cases hack : s.spi.ackBytes = 0
      · exact h.next_reply hack (by omega)
      · exact h.next_ack hack
    obtain ⟨b, hdata, hnext⟩ := hone
    refine ⟨b, said ++ [b], dumped, hdata, ?_, hnext⟩
    rw [hdumped, List.append_nil, List.append_nil]

end

end Speaking

/-- A message starts when nothing is pending. -/
theorem Starts.speaking {m : Msg} {s s' : State} (h : Starts m s s') (hidle : spiPending s = 0) :
    Speaking m [byteAt m.frame 0] [] [] s' := by
  rw [spiPending] at hidle
  have hreply : s'.spi.replyBytes = m.reply.elim 0 fun _ => 4 := by
    have hzero : s.spi.replyBytes = 0 := by omega
    rw [h.replyBytes, hzero]
  have hdump : s'.spi.dumpingMem = m.dump.elim 0 Dump.bytes := by
    have hzero : s.spi.dumpingMem = 0 := by omega
    rw [h.dumpingMem, hzero]
  refine ⟨?_, ?_, fun _ => ⟨h.ackData, ?_⟩, fun hr => ?_, fun _ => rfl, fun hno => ?_,
    fun d hd => ?_⟩
  · exact Stream.prefix_snoc (List.nil_prefix) (m.getElem?_frame (by decide))
  · rw [h.ackBytes, hreply, m.length_text]
    cases m.reply with
    | none => rfl
    | some w => rfl
  · rw [h.ackBytes]
    rfl
  · cases hm : m.reply with
    | none =>
      rw [hm] at hreply
      exact absurd hreply hr
    | some w =>
      have hsize := h.replySize
      have hdata := h.replyData
      rw [hm] at hreply hsize hdata
      refine ⟨by rw [hdata]; rfl, hsize, ?_⟩
      rw [hreply]
      exact Nat.le_refl _
  · rw [hno] at hdump
    exact ⟨hdump, rfl, rfl⟩
  · obtain ⟨hrx, hidx, hcursor⟩ := h.dump d hd
    rw [hd] at hdump
    exact Dumping.start hrx hidx hdump hcursor

/-! ## Runs -/

section
variable [Board] [HostProtocol]

/-- The system together with what was registered and what was read for dumps so far. -/
structure Telling where
  sys : Sys
  msgs : List Msg
  reads : List Fetch

/-- The words a step reads for the dump. -/
def reading (y : Sys) (e : Event) : List Fetch := (pulled y e).elim [] dataReads

/-- One event, with what it registers and reads. -/
def telling (p : Telling) (e : Event) : Telling where
  sys := p.sys.step e
  msgs := p.msgs ++ (message p.sys e).toList
  reads := p.reads ++ reading p.sys e

/-- A message is registered only when nothing is pending, and `hbc_to_spi` is not called
while a dump of received data is going on. -/
def uncrossed (y : Sys) (e : Event) : Prop :=
  (message y e ≠ none → spiPending y.fw.dev = 0) ∧
    (looks y e → y.fw.dev.spi.dumpHbcRx = true → y.fw.dev.spi.dumpingMem = 0)

/-- What the port has said so far: whole messages, and perhaps a part of the last one. -/
def Said (ms : List Msg) (reads : List Fetch) (s : State) : Prop :=
  (spiPending s = 0 ∧ Told ms (dataBytes s.out) reads) ∨
    ∃ told m pre said dumped before part, ms = told ++ [m] ∧
      dataBytes s.out = pre ++ (said ++ dumped) ∧ reads = before ++ part ∧
      Told told pre before ∧ Speaking m said dumped part s

namespace Said

variable {ms : List Msg} {reads : List Fetch} {s s' : State}

omit [Board] [HostProtocol] in
/-- What has been said is intact. -/
theorem intact (h : Said ms reads s) : Intact ms (dataBytes s.out) reads (spiPending s) := by
  rcases h with h | ⟨told, m, pre, said, dumped, before, part, hms, hbs, hreads, htold, hspeak⟩
  · exact Or.inl h
  · exact Or.inr ⟨told, m, pre, said ++ dumped, before, part, hms, hbs, hreads, htold,
      hspeak.begun⟩

omit [Board] [HostProtocol] in
/-- With nothing pending all messages are told. -/
theorem told (h : Said ms reads s) (hidle : spiPending s = 0) :
    Told ms (dataBytes s.out) reads := by
  rcases h with h | ⟨told, m, pre, said, dumped, before, part, rfl, hbs, rfl, htold, hspeak⟩
  · exact h.2
  · rw [hbs]
    exact htold.snoc (hspeak.complete hidle)

omit [Board] [HostProtocol] in
theorem kept (h : Said ms reads s) (hport : PortKept s s')
    (hrd : s.spi.dumpingMem ≠ 0 → s.spi.dumpHbcRx = true → s'.rx.rdBufAddr = s.rx.rdBufAddr) :
    Said ms reads s' := by
  rcases h with ⟨hidle, htold⟩ | ⟨told, m, pre, said, dumped, before, part, hms, hbs, hreads,
    htold, hspeak⟩
  · exact Or.inl ⟨(spiPending_kept hport).trans hidle, hport.data ▸ htold⟩
  · exact Or.inr ⟨told, m, pre, said, dumped, before, part, hms, hport.data.trans hbs, hreads,
      htold, hspeak.kept hport hrd⟩

omit [HostProtocol] in
/-- The next pending byte, whoever asks for it. -/
theorem next (h : Said ms reads s) : Said ms (reads ++ dataReads s) (hbcDataIrq s) := by
  by_cases hidle : spiPending s = 0
  · have hnone : dataReads s = [] := by
      rw [spiPending] at hidle
      exact if_neg fun hno => hno.2.2 (by omega)
    rw [hbcDataIrq_idle hidle, hnone, List.append_nil]
    exact h
  · rcases h with h | ⟨told, m, pre, said, dumped, before, part, hms, hbs, rfl, htold, hspeak⟩
    · exact absurd h.1 hidle
    · obtain ⟨b, said', dumped', hdata, hcat, hspeak'⟩ := hspeak.next hidle
      refine Or.inr ⟨told, m, pre, said', dumped', before, part ++ dataReads s, hms, ?_, ?_,
        htold, hspeak'⟩
      · rw [hdata, hbs, hcat, List.append_assoc]
      · rw [List.append_assoc]

/-- A step of the system. -/
theorem step {y : Sys} {e : Event} (h : Said ms reads y.fw.dev) (hfree : uncrossed y e) :
    Said (ms ++ (message y e).toList) (reads ++ reading y e) (y.step e).fw.dev := by
  by_cases hpc : y.pc = .psocHang
  · have hmsg : message y e = none := if_pos hpc
    have hpull : pulled y e = none := if_pos hpc
    rw [Sys.step_hang hpc, hmsg, reading, hpull, Option.toList_none, Option.elim_none,
      List.append_nil, List.append_nil]
    exact h
  · have hcases := portStep hpc e
    cases hcases with
    | kept hmsg hpull hport hrd =>
      rw [hmsg, reading, hpull, Option.toList_none, Option.elim_none, List.append_nil,
        List.append_nil]
      refine h.kept hport fun hdump hrx => hrd fun hlook => ?_
      exact hdump (hfree.2 hlook hrx)
    | next t hmsg hpull hbefore hrd hafter hrd' =>
      rw [hmsg, reading, hpull, Option.toList_none, Option.elim_some, List.append_nil]
      exact ((h.kept hbefore fun _ _ => hrd).next).kept hafter fun _ _ => hrd'
    | message m hmsg hpull hstarts =>
      have hidle : spiPending y.fw.dev = 0 :=
        hfree.1 (by rw [hmsg]; exact Option.some_ne_none m)
      rw [hmsg, reading, hpull, Option.elim_none, List.append_nil]
      exact Or.inr ⟨ms, m, dataBytes y.fw.dev.out, [byteAt m.frame 0], [], reads, [], rfl,
        hstarts.data, (List.append_nil _).symm, h.told hidle, hstarts.speaking hidle⟩

end Said

/-- **Whole messages.** In a run that registers no message while bytes of an earlier one are
pending, and does not call `hbc_to_spi` during a dump of received data, the bytes written to
the data port are at every moment the messages registered so far, one after the other and
each whole, the last one up to the bytes pending. -/
theorem responses_intact {y : Sys} (hidle : spiPending y.fw.dev = 0)
    (hout : dataBytes y.fw.dev.out = []) {evs : List Event}
    (hfree : Run.Steps Sys.step uncrossed y evs) :
    Run.Always telling
      (fun p => Intact p.msgs (dataBytes p.sys.fw.dev.out) p.reads (spiPending p.sys.fw.dev))
      ⟨y, [], []⟩ evs := by
  have hstart : Said [] [] y.fw.dev := by
    refine Or.inl ⟨hidle, ?_⟩
    rw [hout]
    exact Told.nil
  have hrun : Run.Always telling (fun p => Said p.msgs p.reads p.sys.fw.dev) ⟨y, [], []⟩ evs :=
    Run.always_of_step (fun p e h hC => h.step hC) hstart
      (Run.steps_of_project Telling.sys (fun _ _ => rfl) hfree)
  exact hrun.mono fun p h => h.intact

end

/-- `CMD_HBC_RX_AUTO`, and the host takes its acknowledge. -/
theorem responses_intact_ack :
    letI := plainDram
    letI := plainProtocol
    Run.Always telling
      (fun p => Intact p.msgs (dataBytes p.sys.fw.dev.out) p.reads (spiPending p.sys.fw.dev))
      ⟨Sys.boot bootState, [], []⟩
      ((Item.command (HostProtocol.code .hbcRxAuto) 1 []).encode.map .ctrl
        ++ List.replicate 4 .data) := by
  let := plainDram
  let := plainProtocol
  have hquiet {y : Sys} {e : Event} (he : e ≠ .main) : ¬ looks y e := fun hlook => he hlook.1
  refine responses_intact rfl rfl (Run.steps_append.mpr ⟨?_, ?_⟩)
  · refine ⟨?_, ?_, ?_, ?_, ?_, ?_, ?_, trivial⟩ <;>
      exact ⟨fun _ => by decide +kernel, fun hlook => absurd hlook (hquiet (fun he => by cases he))⟩
  · refine Run.steps_of_forall fun y e he => ?_
    rw [List.eq_of_mem_replicate he]
    exact ⟨fun hmsg => absurd (ite_self none) hmsg,
      fun hlook => absurd hlook (hquiet (fun he => by cases he))⟩

/-- `CMD_HBC_RX_AUTO`, a packet without payload that arrives before the host has taken a byte
of the acknowledge, and the main loop up to its first look at the receiver. -/
def packetDuringAck [HostProtocol] : List Event :=
  (Item.command (HostProtocol.code .hbcRxAuto) 1 []).encode.map .ctrl
    ++ (.rxReady [[0xc4000030]] :: List.replicate 8 .main)

/-- The packet that arrives during the acknowledge is announced in the middle of it. -/
theorem acknowledge_cut_off :
    letI := plainDram
    letI := plainProtocol
    ¬ Run.Always telling
      (fun p => Intact p.msgs (dataBytes p.sys.fw.dev.out) p.reads (spiPending p.sys.fw.dev))
      ⟨Sys.boot bootState, [], []⟩ (packetDuringAck ++ List.replicate 11 .data) := by
  let := plainDram
  let := plainProtocol
  intro h
  have hend := h.last.length
  have hbytes : (dataBytes (Run.run telling ⟨Sys.boot bootState, [], []⟩
        (packetDuringAck ++ List.replicate 11 .data)).sys.fw.dev.out).length = 13 ∧
      spiPending (Run.run telling ⟨Sys.boot bootState, [], []⟩
        (packetDuringAck ++ List.replicate 11 .data)).sys.fw.dev = 0 ∧
      ((Run.run telling ⟨Sys.boot bootState, [], []⟩
        (packetDuringAck ++ List.replicate 11 .data)).msgs.map Msg.length).sum = 16 := by
    decide +kernel
  omega

end HbcMac

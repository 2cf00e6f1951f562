import HbcMac.AutoForward
import HbcMac.FrameSeeds

/-!
# From host to host

One device sends the packets its host queues, another one receives the frames and forwards them.
Each goes on at its own pace, and each part of a frame is heard at any time after it has been sent.
What the second host reads are the payloads of the first, in their order.
-/

namespace HbcMac

open LittleEndian

/-! ## Two devices -/

/-- Two devices: `heard` frames have been received to their end, and `offset` words of the frame
behind them. -/
structure Link where
  sender : Sys
  receiver : Sys
  heard : ℕ
  offset : ℕ

/-- What can happen on the link. The air delivers the frames one behind the other, each in pieces of
any size. -/
inductive LinkEvent
  /-- A statement of the sender's loop or an interrupt of its host. -/
  | send (e : Event)
  /-- A statement of the receiver's loop or a data interrupt. -/
  | forward (e : Event)
  /-- `IRQ_RX_FIFO_ALMOST_FULL` with the next `n` words of the frame. -/
  | words (n : ℕ)
  /-- `IRQ_RX_PKT_READY` with the rest of the frame. -/
  | finish

namespace Link

/-- The words of the frame on the air that have not been heard yet. -/
def onAir (l : Link) : Option (List Word) :=
  l.sender.frames[l.heard]?.map fun f => f.words.drop l.offset

section
variable [Board] [HostProtocol]

/-- One event. The words of a receive interrupt are all there before the first poll of its handler.
-/
def step (l : Link) : LinkEvent → Link
  | .send e => { l with sender := l.sender.step e }
  | .forward e => { l with receiver := l.receiver.step e }
  | .words n =>
    match l.onAir with
    | none => l
    | some ws =>
      { l with receiver := l.receiver.step (.rxData [ws.take n]), offset := l.offset + n }
  | .finish =>
    match l.onAir with
    | none => l
    | some ws =>
      { l with receiver := l.receiver.step (.rxReady [ws]), heard := l.heard + 1, offset := 0 }

end

/-- The sender only sends, the receiver only forwards. -/
def Allowed (_ : Link) : LinkEvent → Prop
  | .send e => e.transmits = true
  | .forward e => e = .main ∨ e = .data
  | _ => True

end Link

/-- The bytes on the control port of the sender. -/
def senderBytes (evs : List LinkEvent) : List Byte :=
  ctrlBytes (evs.filterMap fun e => match e with
    | .send e => some e
    | _ => none)

/-! ## Frames that carry payloads -/

section
variable [Dram] [HostProtocol]

omit [HostProtocol] in
/-- The place a frame takes in the ring. -/
theorem packetBytes_carries {fr : Frame} {p : List Byte} (hsend : Sendable p)
    (hcarries : Carries fr p) : packetBytes fr.words = 8 + p.length := by
  rw [hcarries.words, packetBytes, length_descramble, length_wordsOf,
    Nat.mul_div_cancel' hsend.1]

omit [HostProtocol] in
/-- The frames sent so far are those of the first payloads. -/
theorem Consuming.forall₂ {base : Word} {ps : List (List Byte)} {y : Sys}
    (h : Consuming base ps y) : List.Forall₂ Carries y.frames (ps.take y.frames.length) := by
  have hle : y.frames.length ≤ ps.length := by
    rcases Nat.eq_zero_or_pos y.frames.length with hzero | hpos
    · omega
    · obtain ⟨p, hp, -⟩ := h.carried (y.frames.length - 1) _
        (List.getElem?_eq_getElem (Nat.sub_lt hpos Nat.one_pos))
      have hlt := (List.getElem?_eq_some_iff.mp hp).1
      omega
  refine List.forall₂_iff_get.mpr ⟨by rw [List.length_take]; omega, fun i h₁ h₂ => ?_⟩
  obtain ⟨p, hp, hcarries⟩ := h.carried i _ (List.getElem?_eq_getElem h₁)
  obtain ⟨hi, rfl⟩ := List.getElem?_eq_some_iff.mp hp
  rw [List.get_eq_getElem, List.get_eq_getElem, List.getElem_take]
  exact hcarries

/-- The bytes the messages about the payloads take in the ring. -/
def ringBytes (ps : List (List Byte)) : ℕ := (ps.map fun p => 8 + p.length).sum

omit [HostProtocol] in
/-- The frames of the payloads take up the room of the payloads in the ring. -/
theorem queueBytes_carries {frames : List Frame} {ps : List (List Byte)}
    (hsend : ∀ p ∈ ps, Sendable p) (h : List.Forall₂ Carries frames ps) :
    queueBytes (frames.map Frame.words) = ringBytes ps := by
  induction h with
  | nil => rfl
  | @cons fr p frames ps hcarries hrest ih =>
    rw [List.map_cons, queueBytes_cons, ih fun q hq => hsend q (List.mem_cons_of_mem p hq),
      packetBytes_carries (hsend p List.mem_cons_self) hcarries, ringBytes, ringBytes,
      List.map_cons, List.sum_cons]

omit [Dram] [HostProtocol] in
/-- Fewer packets take up less. -/
theorem queueBytes_take_le (n : ℕ) (qs : List (List Word)) :
    queueBytes (qs.take n) ≤ queueBytes qs := by
  have hsplit := queueBytes_append (qs.take n) (qs.drop n)
  rw [List.take_append_drop] at hsplit
  omega

omit [Dram] [HostProtocol] in
/-- As long as everything received fits the ring, nothing is overrun. -/
theorem FwdSys.fits_of_total {f : FwdSys} (hne : ∀ p ∈ f.received, p ≠ [])
    (htotal : queueBytes f.received + packetBytes f.current ≤ halfSize) : f.Fits := by
  constructor
  · rcases List.eq_nil_or_concat f.received with hnil | ⟨qs, p, hcons⟩
    · rw [hnil]
      decide
    · have hpos := packetBytes_pos (hne p (by rw [hcons]; simp))
      rw [List.concat_eq_append] at hcons
      rw [hcons, queueBytes_append, queueBytes_cons, queueBytes_nil] at htotal
      rw [hcons, List.dropLast_concat]
      omega
  · have hdrop (n : ℕ) : queueBytes (f.received.drop n) ≤ queueBytes f.received := by
      have hsplit := queueBytes_append (f.received.take n) (f.received.drop n)
      rw [List.take_append_drop] at hsplit
      omega
    have hneeded := hdrop (if f.dev.spi.dumpingMem = 0 then f.released else f.released - 1)
    rw [FwdSys.needed]
    omega

/-! ## The invariant -/

/-- What the receiver has heard of the frames sent. -/
def Link.completed (l : Link) : List (List Word) := (l.sender.frames.take l.heard).map Frame.words

/-- And of the frame that has not been heard to its end. -/
def Link.current (l : Link) : List Word :=
  (l.sender.frames[l.heard]?).elim [] fun fr => fr.words.take l.offset

/-- The two ends together: the sender has put out what its host has queued, the receiver has taken
in what has been heard of it and says so, and everything is still in its place. -/
structure LinkInv (base : Word) (log₀ : List (Word × Word)) (ps : List (List Byte))
    (out₀ rest : List Byte) (l : Link) : Prop where
  producing : Producing base log₀ ps rest l.sender
  consuming : Consuming base ps l.sender
  seeds : SeedInv l.sender
  heard_le : l.heard ≤ l.sender.frames.length
  waiting : l.heard = l.sender.frames.length → l.offset = 0
  receiving : ∃ f, Forwards out₀ l.receiver f ∧ f.received = l.completed ∧ f.current = l.current

section
variable {base : Word} {log₀ : List (Word × Word)} {ps : List (List Byte)} {out₀ rest : List Byte}
  {l : Link}

omit [HostProtocol] in
/-- Whatever is on its way, the payloads have room for it. -/
theorem Consuming.room {l : Link} (h : Consuming base ps l.sender) (hsend : ∀ p ∈ ps, Sendable p) :
    queueBytes l.completed + packetBytes l.current ≤ ringBytes ps := by
  have hall : queueBytes (l.sender.frames.map Frame.words) ≤ ringBytes ps := by
    have hsent := queueBytes_carries (fun p hp => hsend p (List.mem_of_mem_take hp)) h.forall₂
    have hsplit : ringBytes (ps.take l.sender.frames.length)
        + ringBytes (ps.drop l.sender.frames.length) = ringBytes ps := by
      unfold ringBytes
      rw [← List.sum_append, ← List.map_append, List.take_append_drop]
    omega
  rw [Link.completed, Link.current]
  cases hfr : l.sender.frames[l.heard]? with
  | none =>
    have hle := queueBytes_take_le l.heard (l.sender.frames.map Frame.words)
    rw [List.map_take]
    show _ + 0 ≤ _
    omega
  | some fr =>
    -- the frame being heard is the one behind those heard to their end
    have hnext : l.sender.frames.take (l.heard + 1) = l.sender.frames.take l.heard ++ [fr] := by
      obtain ⟨hlt, rfl⟩ := List.getElem?_eq_some_iff.mp hfr
      exact (List.take_concat_get' _ _ hlt).symm
    have hle := queueBytes_take_le (l.heard + 1) (l.sender.frames.map Frame.words)
    have hpart : packetBytes (fr.words.take l.offset) ≤ packetBytes fr.words :=
      packetBytes_mono (List.take_prefix _ _)
    rw [← List.map_take, hnext, List.map_append, queueBytes_append, List.map_singleton,
      queueBytes_cons, queueBytes_nil] at hle
    show _ + packetBytes (fr.words.take l.offset) ≤ _
    omega

omit [HostProtocol] in
/-- Frames are never empty. -/
theorem SeedInv.words_ne_nil {y : Sys} (h : SeedInv y) : ∀ fr ∈ y.frames, fr.words ≠ [] := by
  intro fr hfr hnil
  obtain ⟨k, hk, hget⟩ := List.getElem_of_mem hfr
  obtain ⟨ws, hrec⟩ := h.received k fr (by rw [List.getElem?_eq_getElem hk, hget])
  have hforward := hrec.forwardable
  rw [hnil] at hforward
  cases hforward

omit [HostProtocol] in
/-- A forwarder that has heard this much overruns nothing. -/
theorem Consuming.fits {f : FwdSys} (h : Consuming base ps l.sender) (hseeds : SeedInv l.sender)
    (hsend : ∀ p ∈ ps, Sendable p) (hroom : ringBytes ps ≤ halfSize)
    (hrec : f.received = l.completed) (hcur : f.current = l.current) : f.Fits := by
  have htotal := h.room hsend
  refine FwdSys.fits_of_total (fun p hp => ?_) (by rw [hrec, hcur]; omega)
  rw [hrec] at hp
  obtain ⟨fr, hfr, rfl⟩ := List.mem_map.mp hp
  exact hseeds.words_ne_nil fr (List.mem_of_mem_take hfr)

/-- The receiver takes a step of the forwarder, if it takes one at all. -/
theorem Forwards.step {y : Sys} {f : FwdSys} {e : Event} (h : Forwards out₀ y f)
    (hC : ReceivesOnly y e) (hfits : f.Fits)
    (hfits' : ∀ a, y.forwards e = some a → (f.step a).Fits) :
    Forwards out₀ (y.step e) ((y.forwards e).elim f f.step) := by
  cases hact : y.forwards e with
  | none => exact h.quiet hC hact
  | some a => exact (h.seen hC hact hfits (hfits' a hact)).2

/-- Frames are only added. -/
theorem Producing.frames_append {y : Sys} (h : Producing base log₀ ps rest y) (e : Event) :
    ∃ new, (y.step e).frames = y.frames ++ new := by
  have hpc : y.pc ≠ .psocHang := by
    intro hpc
    have hu := h.pc
    rw [hpc] at hu
    cases hu
  by_cases he : e = .main
  · subst he
    rw [Sys.step_main hpc]
    exact ⟨_, rfl⟩
  · exact ⟨[], by rw [Sys.step_frames he, List.append_nil]⟩

/-- The packets of the stream leave the header of the sender alone. -/
theorem Producing.seeds {y : Sys} {e : Event} (h : Producing base log₀ ps (ctrlBytes [e] ++ rest) y)
    (hseeds : SeedInv y) (he : e.transmits = true) (hsend : ∀ p ∈ ps, Sendable p)
    (hbase : 4 ∣ base.toNat) : SeedInv (y.step e) := by
  cases e with
  | main => exact hseeds.main
  | data => exact hseeds.step fun c hc => absurd hc (Option.not_mem_none c)
  | rxData arr | rxReady arr => cases he
  | ctrl b =>
    have hpc : y.pc ≠ .psocHang := by
      intro hpc
      have hu := h.pc
      rw [hpc] at hu
      cases hu
    obtain ⟨done, hstream⟩ := h.stream
    obtain ⟨-, n, -, hmain⟩ := hstream.step hsend hbase
    have hpc' : (y.step (.ctrl b)).pc = y.pc := by rw [Sys.step_ctrl hpc]
    have hframes : (y.step (.ctrl b)).frames = y.frames := by rw [Sys.step_ctrl hpc]
    have hvars : (y.step (.ctrl b)).fw.dev.main = { y.fw.dev.main with txPending := n } := by
      rw [Sys.step_ctrl hpc]
      exact hmain
    refine hseeds.same hpc' ?_ ?_ hframes
    · rw [hvars]
      exact hseeds.inRange
    · rw [hvars]
      rfl

/-- The sender: a frame more on the air changes nothing about what has been heard. -/
theorem LinkInv.send {e : Event} (h : LinkInv base log₀ ps out₀ (ctrlBytes [e] ++ rest) l)
    (he : e.transmits = true) (hsend : ∀ p ∈ ps, Sendable p) (hbase : 4 ∣ base.toNat)
    (hfit : base.toNat + 4 * (ps.flatMap record).length ≤ halfSize) :
    LinkInv base log₀ ps out₀ rest (l.step (.send e)) := by
  obtain ⟨new, hnew⟩ := h.producing.frames_append e
  have hle : l.heard ≤ (l.sender.step e).frames.length := by
    rw [hnew, List.length_append]
    exact Nat.le_add_right_of_le h.heard_le
  have hcompleted : (l.step (.send e)).completed = l.completed := by
    show ((l.sender.step e).frames.take l.heard).map _ = _
    rw [hnew, List.take_append_of_le_length h.heard_le]
    rfl
  have hcurrent : (l.step (.send e)).current = l.current := by
    show ((l.sender.step e).frames[l.heard]?).elim [] _ = _
    rcases Nat.lt_or_ge l.heard l.sender.frames.length with hlt | hge
    · rw [hnew, List.getElem?_append_left hlt]
      rfl
    · -- nothing has been heard of a frame that is still to be sent
      have hzero := h.waiting (Nat.le_antisymm h.heard_le hge)
      rw [Link.current, List.getElem?_eq_none hge]
      cases (l.sender.step e).frames[l.heard]? with
      | none => rfl
      | some fr =>
        show fr.words.take l.offset = []
        rw [hzero]
        rfl
  refine ⟨h.producing.step he hsend hbase, h.consuming.step h.producing he hsend hbase hfit,
    h.producing.seeds h.seeds he hsend hbase, hle, fun hall => h.waiting ?_, ?_⟩
  · refine Nat.le_antisymm h.heard_le ?_
    have hlen : l.heard = (l.sender.step e).frames.length := hall
    rw [hnew, List.length_append] at hlen
    omega
  · rw [hcompleted, hcurrent]
    exact h.receiving

/-- The receiver, with its packets and the words heard of the next one after the step. -/
theorem LinkInv.receiver {l' : Link} {e : Event} (h : LinkInv base log₀ ps out₀ rest l)
    (hC : ReceivesOnly l.receiver e) (hsender : l'.sender = l.sender)
    (hreceiver : l'.receiver = l.receiver.step e)
    (hheard : l'.heard ≤ l'.sender.frames.length)
    (hwaiting : l'.heard = l'.sender.frames.length → l'.offset = 0)
    (hseen : ∀ f : FwdSys, f.received = l.completed → f.current = l.current →
      ((l.receiver.forwards e).elim f f.step).received = l'.completed
        ∧ ((l.receiver.forwards e).elim f f.step).current = l'.current)
    (hsend : ∀ p ∈ ps, Sendable p) (hroom : ringBytes ps ≤ halfSize) :
    LinkInv base log₀ ps out₀ rest l' := by
  obtain ⟨f, hf, hrec, hcur⟩ := h.receiving
  obtain ⟨hrec', hcur'⟩ := hseen f hrec hcur
  have hconsuming' : Consuming base ps l'.sender := hsender ▸ h.consuming
  have hfits := h.consuming.fits h.seeds hsend hroom hrec hcur
  have hfits' := hconsuming'.fits (hsender ▸ h.seeds) hsend hroom hrec' hcur'
  have hforwards := hf.step hC hfits fun a ha => by rwa [ha] at hfits'
  rw [← hreceiver] at hforwards
  refine ⟨hsender ▸ h.producing, hconsuming', hsender ▸ h.seeds, hheard, hwaiting, _, hforwards,
    hrec', hcur'⟩

/-- One step of either device. -/
theorem LinkInv.step {e : LinkEvent} (h : LinkInv base log₀ ps out₀ (senderBytes [e] ++ rest) l)
    (hallowed : l.Allowed e) (hsend : ∀ p ∈ ps, Sendable p) (hbase : 4 ∣ base.toNat)
    (hfit : base.toNat + 4 * (ps.flatMap record).length ≤ halfSize)
    (hroom : ringBytes ps ≤ halfSize) : LinkInv base log₀ ps out₀ rest (l.step e) := by
  cases e with
  | send e => exact h.send hallowed hsend hbase hfit
  | forward e =>
    have hquiet : ReceivesOnly l.receiver e := by
      rcases hallowed with rfl | rfl <;> trivial
    refine LinkInv.receiver h hquiet rfl rfl h.heard_le h.waiting (fun f hrec hcur => ?_) hsend
      hroom
    rcases hallowed with rfl | rfl
    · by_cases hcall : l.receiver.pc = .rxCall true
      · rw [show l.receiver.forwards .main = some .forward from if_pos hcall]
        exact ⟨hrec, hcur⟩
      · rw [show l.receiver.forwards .main = none from if_neg hcall]
        exact ⟨hrec, hcur⟩
    · exact ⟨hrec, hcur⟩
  | words n =>
    cases hfr : l.sender.frames[l.heard]? with
    | none =>
      have hstep : l.step (.words n) = l := by
        simp only [Link.step, Link.onAir, hfr, Option.map_none]
      rw [hstep]
      exact h
    | some fr =>
      have hstep : l.step (.words n) = { l with
          receiver := l.receiver.step (.rxData [(fr.words.drop l.offset).take n])
          offset := l.offset + n } := by
        simp only [Link.step, Link.onAir, hfr, Option.map_some]
      have hlt := (List.getElem?_eq_some_iff.mp hfr).1
      rw [hstep]
      refine LinkInv.receiver h (e := .rxData [(fr.words.drop l.offset).take n]) rfl rfl rfl
        h.heard_le (fun hall => absurd hall (Nat.ne_of_lt hlt)) (fun f hrec hcur => ⟨hrec, ?_⟩)
        hsend hroom
      show f.current ++ [(fr.words.drop l.offset).take n].flatten
        = (l.sender.frames[l.heard]?).elim [] fun fr => fr.words.take (l.offset + n)
      rw [hcur, Link.current, hfr, List.flatten_singleton]
      exact List.take_add.symm
  | finish =>
    cases hfr : l.sender.frames[l.heard]? with
    | none =>
      have hstep : l.step .finish = l := by
        simp only [Link.step, Link.onAir, hfr, Option.map_none]
      rw [hstep]
      exact h
    | some fr =>
      have hstep : l.step .finish = { l with
          receiver := l.receiver.step (.rxReady [fr.words.drop l.offset])
          heard := l.heard + 1
          offset := 0 } := by
        simp only [Link.step, Link.onAir, hfr, Option.map_some]
      obtain ⟨hlt, hget⟩ := List.getElem?_eq_some_iff.mp hfr
      rw [hstep]
      refine LinkInv.receiver h (e := .rxReady [fr.words.drop l.offset]) rfl rfl rfl hlt
        (fun _ => rfl) (fun f hrec hcur => ?_) hsend hroom
      -- what has been heard before and the rest are the whole frame
      have hwhole : f.current ++ [fr.words.drop l.offset].flatten = fr.words := by
        rw [hcur, Link.current, hfr, List.flatten_singleton]
        exact List.take_append_drop _ _
      have hne : fr.words ≠ [] := h.seeds.words_ne_nil fr (hget ▸ List.getElem_mem hlt)
      constructor
      · show (if f.current ++ [fr.words.drop l.offset].flatten = [] then f.received
          else f.received ++ [f.current ++ [fr.words.drop l.offset].flatten]) = _
        rw [hwhole, if_neg hne, hrec]
        show _ = (l.sender.frames.take (l.heard + 1)).map Frame.words
        rw [← List.take_concat_get' _ _ hlt, List.map_append, hget]
        rfl
      · show [] = (l.sender.frames[l.heard + 1]?).elim [] fun fr => fr.words.take 0
        cases l.sender.frames[l.heard + 1]? with
        | none => rfl
        | some fr => rfl

/-! ## Runs -/

omit [Dram] [HostProtocol] in
/-- The bytes of the first event come first. -/
theorem senderBytes_cons (e : LinkEvent) (evs : List LinkEvent) :
    senderBytes (e :: evs) = senderBytes [e] ++ senderBytes evs := by
  rw [senderBytes, senderBytes, senderBytes, ← List.singleton_append, List.filterMap_append]
  exact List.filterMap_append

/-- What holds of the link holds throughout a run. -/
theorem LinkInv.run {evs : List LinkEvent}
    (h : LinkInv base log₀ ps out₀ (senderBytes evs ++ rest) l)
    (hC : Run.Steps Link.step Link.Allowed l evs) (hsend : ∀ p ∈ ps, Sendable p)
    (hbase : 4 ∣ base.toNat) (hfit : base.toNat + 4 * (ps.flatMap record).length ≤ halfSize)
    (hroom : ringBytes ps ≤ halfSize) :
    LinkInv base log₀ ps out₀ rest (Run.run Link.step l evs) := by
  induction evs generalizing l with
  | nil => exact h
  | cons e evs ih =>
    rw [senderBytes_cons, List.append_assoc] at h
    exact ih (h.step hC.1 hsend hbase hfit hroom) hC.2

/-- Two devices about to exchange the payloads `ps`: the sender with an empty buffer, the receiver
listening, and room on both sides for everything. -/
structure LinkStart (base : Word) (ps : List (List Byte)) (l : Link) : Prop where
  sender : TxStart base l.sender
  inRange : l.sender.fw.dev.main.headerInfo.InRange
  seed : l.sender.fw.dev.main.headerInfo.scramblerSeed = 0
  receiver : l.receiver.Listens
  heard : l.heard = 0
  offset : l.offset = 0
  sendable : ∀ p ∈ ps, Sendable p
  buffer : base.toNat + (ps.map fun p => 4 + p.length).sum ≤ halfSize
  ring : ringBytes ps ≤ halfSize

/-- It holds at the start. -/
theorem LinkStart.inv (h : LinkStart base ps l) : LinkInv base l.sender.fw.dev.mem.log ps
    (dataBytes l.receiver.fw.dev.out) (stream ps) l := by
  have hframes := h.sender.frames
  refine ⟨h.sender.producing ps, h.sender.consuming ps, ⟨h.inRange, ?_, ?_⟩, ?_, fun _ => h.offset,
    _, h.receiver.forwards, ?_, ?_⟩
  · rw [h.sender.pc, hframes]
    exact h.seed
  · intro k fr hfr
    rw [hframes] at hfr
    cases hfr
  · rw [h.heard]
    exact Nat.zero_le _
  · show [] = (l.sender.frames.take l.heard).map Frame.words
    rw [h.heard]
    rfl
  · show [] = (l.sender.frames[l.heard]?).elim [] _
    rw [hframes]
    rfl

/-- And so in every run from there. -/
theorem LinkStart.run {evs : List LinkEvent} (h : LinkStart base ps l)
    (hC : Run.Steps Link.step Link.Allowed l evs) (hbytes : senderBytes evs ++ rest = stream ps) :
    LinkInv base l.sender.fw.dev.mem.log ps (dataBytes l.receiver.fw.dev.out) rest
      (Run.run Link.step l evs) := by
  have hinv := h.inv
  rw [← hbytes] at hinv
  have hbuffer := h.buffer
  rw [← length_flatMap_record h.sendable] at hbuffer
  exact hinv.run hC h.sendable h.sender.aligned hbuffer h.ring

end

end

/-! ## A payload of four bytes -/

end HbcMac

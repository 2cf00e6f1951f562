import HbcMac.FrameSeeds
import HbcMac.PacketQueue
import HbcMac.Requests

/-!
# The host that polls

The receive commands as the host sees them: commands and answers on the two ports, one exchange
after the other. The answers are those of the queue at the moment a command is executed, and around
that moment packets may come in.
-/

namespace HbcMac

open LittleEndian

/-! ## Sessions with the queue -/

/-- The command. -/
def Poll.cmd : Poll → Cmd
  | ready => .hbcRxReady
  | length => .hbcRxLength
  | bytesRead => .hbcRxBytesRead
  | crcOk => .hbcRxCrcOk
  | read => .hbcRxRead
  | next => .hbcRxNext
  | check => .hbcRxCheck

/-- Each command is one of the queue's. -/
@[simp] theorem Poll.poll_cmd (p : Poll) : p.cmd.poll = some p := by
  cases p <;> rfl

/-- Packets have come in. -/
structure PacketQueue.Grows (q q' : PacketQueue) : Prop where
  dropped : q'.dropped = q.dropped
  waiting : q.waiting <+: q'.waiting
  looked : q'.looked = q.looked

namespace PacketQueue.Grows

variable {q q' q'' : PacketQueue}

theorem refl (q : PacketQueue) : q.Grows q := ⟨rfl, List.prefix_rfl, rfl⟩

theorem trans (h : q.Grows q') (h' : q'.Grows q'') : q.Grows q'' :=
  ⟨h'.dropped.trans h.dropped, h.waiting.trans h'.waiting, h'.looked.trans h.looked⟩

/-- A packet comes in whole. -/
theorem finish (ws : List Word) (q : PacketQueue) : q.Grows (q.finish ws) := by
  refine ⟨rfl, ?_, rfl⟩
  unfold PacketQueue.finish
  dsimp only
  split
  · exact List.prefix_rfl
  · exact List.prefix_append _ _

end PacketQueue.Grows

section
variable [Board] [HostProtocol]

/-- The answer of a command that returns nothing. -/
def bareAck : List Byte := bytes (replyFrame (HostProtocol.hbcAck.setWidth 8) 0)

/-- The bytes with which a command is answered when the queue is `q`. -/
def PacketQueue.Answers (q : PacketQueue) (p : Poll) (text : List Byte) : Prop :=
  if p = .next then text = bareAck
  else ∃ w, text = answerBytes w ∧ ∀ v, q.reply p = some v → w = v

/-- Dropping is acknowledged and no more. -/
theorem PacketQueue.Answers.next {q : PacketQueue} {text : List Byte} (h : q.Answers .next text) :
    text = bareAck := by
  rwa [PacketQueue.Answers, if_pos rfl] at h

/-- The other commands return a word. -/
theorem PacketQueue.Answers.word {q : PacketQueue} {p : Poll} {text : List Byte}
    (h : q.Answers p text) (hp : p ≠ .next) :
    ∃ w, text = answerBytes w ∧ ∀ v, q.reply p = some v → w = v := by
  rwa [PacketQueue.Answers, if_neg hp] at h

/-- The commands `ps` are answered with the bytes `text` all in all, and take the queue from `q` to
`q'`. -/
inductive Session : PacketQueue → List Poll → List Byte → PacketQueue → Prop
  | nil {q q' : PacketQueue} (h : q.Grows q') : Session q [] [] q'
  | cons {q q₁ q' : PacketQueue} {p : Poll} {ps : List Poll} {text rest : List Byte}
      (h : q.Grows q₁) (hanswer : q₁.Answers p text) (hrest : Session (q₁.poll p) ps rest q') :
      Session q (p :: ps) (text ++ rest) q'

/-- Packets may have come in before. -/
theorem Session.grow {q q₁ q' : PacketQueue} {ps : List Poll} {text : List Byte} (h : q.Grows q₁)
    (hsession : Session q₁ ps text q') : Session q ps text q' := by
  cases hsession with
  | nil h' => exact .nil (h.trans h')
  | cons h' hanswer hrest => exact .cons (h.trans h') hanswer hrest

/-- What a host reads that goes through a packet word by word and drops it. -/
def readOut (p : List Word) : List Poll :=
  .ready :: List.replicate (packetClosed p).length .read ++ [.next]

/-- The number of packets waiting, all words of the packet from the marker on, and the
acknowledge of the last command. -/
def IsReadOut (p : List Word) (text : List Byte) : Prop :=
  ∃ n, text = answerBytes n ++ (packetClosed p).flatMap answerBytes ++ bareAck

namespace Session

variable {q q' : PacketQueue} {p : List Word} {rest : List Poll} {text : List Byte}

/-- The first command, and the rest. -/
theorem uncons {c : Poll} (h : Session q (c :: rest) text q') : ∃ q₁ text₁ text₂,
    text = text₁ ++ text₂ ∧ q.Grows q₁ ∧ q₁.Answers c text₁ ∧
      Session (q₁.poll c) rest text₂ q' := by
  cases h with
  | cons h hanswer hrest => exact ⟨_, _, _, rfl, h, hanswer, hrest⟩

/-- Reading on, from word `k` of the packet. -/
theorem reads {k n : ℕ} (hlooked : q.looked = some k) (hp : q.waiting.head? = some p)
    (hn : k + n ≤ (packetClosed p).length)
    (h : Session q (List.replicate n .read ++ rest) text q') : ∃ q₁ text₂,
      text = (((packetClosed p).drop k).take n).flatMap answerBytes ++ text₂ ∧
      q₁.looked ≠ none ∧ q₁.dropped = q.dropped ∧ q.waiting <+: q₁.waiting ∧
      Session q₁ rest text₂ q' := by
  induction n generalizing q k text with
  | zero =>
    rw [List.replicate_zero, List.nil_append] at h
    refine ⟨q, text, ?_, by rw [hlooked]; exact Option.some_ne_none k, rfl, List.prefix_rfl, h⟩
    rw [List.take_zero]
    rfl
  | succ n ih =>
    rw [List.replicate_succ, List.cons_append] at h
    obtain ⟨q₁, text₁, text₂, rfl, hgrows, hanswer, hsession⟩ := h.uncons
    have hlt : k < (packetClosed p).length := by omega
    have hhead : q₁.waiting.head? = some p := by
      obtain ⟨ps, hps⟩ := List.head?_eq_some_iff.mp hp
      obtain ⟨more, hmore⟩ := hgrows.waiting
      rw [← hmore, hps]
      rfl
    have hlooked₁ := hgrows.looked.trans hlooked
    -- the word at which the reader stands
    have hreply : q₁.reply .read = some ((packetClosed p)[k]) := by
      rw [PacketQueue.reply, hlooked₁, Option.bind_some, hhead, Option.bind_some]
      exact List.getElem?_eq_getElem hlt
    obtain ⟨w, rfl, hw⟩ := hanswer.word (by decide)
    have hnext : (q₁.poll .read).looked = some (k + 1) := by
      rw [PacketQueue.poll, hlooked₁]
      rfl
    obtain ⟨q₂, text₃, rfl, hlooked₂, hdropped, hwaiting, hrest⟩ :=
      ih hnext hhead (by omega) hsession
    refine ⟨q₂, text₃, ?_, hlooked₂, hdropped.trans hgrows.dropped,
      hgrows.waiting.trans hwaiting, hrest⟩
    rw [hw _ hreply, List.drop_eq_getElem_cons hlt, List.take_succ_cons, List.flatMap_cons,
      List.append_assoc]

/-- The oldest packet is read out. -/
theorem packet {ps : List (List Word)} (hq : q.waiting = p :: ps)
    (h : Session q (readOut p ++ rest) text q') : ∃ q₁ text₁ text₂, text = text₁ ++ text₂ ∧
      IsReadOut p text₁ ∧ q₁.dropped = q.dropped ++ [p] ∧ ps <+: q₁.waiting ∧
      Session q₁ rest text₂ q' := by
  rw [readOut, List.cons_append, List.cons_append, List.append_assoc, List.singleton_append] at h
  obtain ⟨q₁, text₁, text₂, rfl, hgrows, hanswer, hsession⟩ := h.uncons
  obtain ⟨n, rfl, -⟩ := hanswer.word (by decide)
  obtain ⟨more, hmore⟩ := hgrows.waiting
  have hwaiting : q₁.waiting = p :: (ps ++ more) := by rw [← hmore, hq, List.cons_append]
  have hlooked : (q₁.poll .ready).looked = some 0 :=
    if_neg (by rw [hwaiting]; exact List.cons_ne_nil p _)
  have hhead : (q₁.poll .ready).waiting.head? = some p := congrArg List.head? hwaiting
  obtain ⟨q₂, text₃, rfl, -, hdropped, hprefix, hsession₂⟩ :=
    hsession.reads hlooked hhead (Nat.le_of_eq (Nat.zero_add _))
  obtain ⟨q₃, text₄, text₅, rfl, hgrows', hanswer', hsession₃⟩ := hsession₂.uncons
  obtain rfl := hanswer'.next
  obtain ⟨more', hmore'⟩ := hprefix.trans hgrows'.waiting
  have hwaiting' : q₃.waiting = p :: (ps ++ more ++ more') := by
    rw [← hmore']
    exact congrArg (· ++ more') hwaiting
  refine ⟨_, answerBytes n ++ (packetClosed p).flatMap answerBytes ++ bareAck, text₅, ?_, ⟨n, rfl⟩,
    ?_, ?_, hsession₃⟩
  · rw [List.drop_zero, List.take_length]
    simp only [List.append_assoc]
  · show q₃.dropped ++ q₃.waiting.take 1 = _
    rw [hwaiting', hgrows'.dropped, hdropped]
    exact congrArg (· ++ [p]) hgrows.dropped
  · show ps <+: q₃.waiting.tail
    rw [hwaiting', List.tail_cons, List.append_assoc]
    exact List.prefix_append _ _

/-- **The packets are read out**, the oldest first. -/
theorem packets {ps more : List (List Word)} (hq : q.waiting = ps ++ more)
    (h : Session q (ps.flatMap readOut) text q') : ∃ texts, List.Forall₂ IsReadOut ps texts ∧
      text = texts.flatten ∧ q'.dropped = q.dropped ++ ps ∧ more <+: q'.waiting := by
  induction ps generalizing q text more with
  | nil =>
    cases h with
    | nil h =>
      refine ⟨[], .nil, rfl, ?_, ?_⟩
      · rw [h.dropped, List.append_nil]
      · rw [List.nil_append] at hq
        rw [← hq]
        exact h.waiting
  | cons p ps ih =>
    rw [List.flatMap_cons] at h
    obtain ⟨q₁, text₁, text₂, rfl, hread, hdropped, ⟨later, hlater⟩, hsession⟩ := h.packet hq
    have hwaiting : q₁.waiting = ps ++ (more ++ later) :=
      hlater.symm.trans (List.append_assoc ps more later)
    obtain ⟨texts, hall, rfl, hend, hmore⟩ := ih hwaiting hsession
    refine ⟨text₁ :: texts, .cons hread hall, rfl, ?_, (List.prefix_append _ _).trans hmore⟩
    rw [hend, hdropped, List.append_assoc, List.singleton_append]

end Session

/-! ## The firmware -/

/-- The exchange of a command. -/
def Poll.item (p : Poll) (arg : Word) : Item := .command (HostProtocol.code p.cmd) arg []

/-- The commands of the polling host, each with an argument that is not looked at. -/
def pollItems (ps : List (Poll × Word)) : List Item := ps.map fun r => r.1.item r.2

omit [Board] in
/-- The commands executed, by their names. -/
theorem Sys.command_of_executes (y : Sys) (e : Event) :
    y.command e = (y.executes e).bind fun r => (decodeCmd r.1).map fun c => (c, r.2) := by
  by_cases hpc : y.pc = .psocHang
  · rw [Sys.command_hang hpc]
    cases e with
    | ctrl b =>
      rw [Sys.executes, if_pos hpc]
      rfl
    | _ => rfl
  · cases e with
    | ctrl b =>
      rw [Sys.command_ctrl hpc, Sys.executes, if_neg hpc]
      rfl
    | _ => rfl

omit [Board] in
/-- While no command is executed, all that can happen is that packets come in. -/
theorem PacketQueue.Grows.after {y : Sys} {e : Event} (h : y.executes e = none) (q : PacketQueue) :
    q.Grows (q.after y e) := by
  cases e with
  | main | ctrl b | data =>
    rw [PacketQueue.after_command rfl, Sys.command_of_executes, h]
    exact .refl q
  | rxData arr =>
    show q.Grows (ite _ _ _)
    split
    · exact ⟨rfl, List.prefix_rfl, rfl⟩
    · exact .refl q
  | rxReady arr =>
    show q.Grows (ite _ _ _)
    split
    · exact .finish arr.flatten q
    · exact .refl q

/-- The queue beside the system does not disturb it. -/
theorem Polling.run_sys (z : Polling) (es : List Event) :
    (Run.run Polling.step z es).sys = Run.run Sys.step z.sys es :=
  Run.run_of_project Polling.sys (fun _ _ => rfl) z es

/-- Without commands the queue can only grow. -/
theorem Polling.grows {quiet : Word → Prop} {z : Polling} {es : List Event}
    (h : Run.Steps Sys.step (Uncommanded quiet) z.sys es) :
    z.queue.Grows (Run.run Polling.step z es).queue := by
  have hproject : Run.Steps Polling.step (fun z' e => Uncommanded quiet z'.sys e) z es :=
    Run.steps_of_project Polling.sys (fun _ _ => rfl) h
  exact Run.run_of_step (I := fun z' : Polling => z.queue.Grows z'.queue)
    (fun z' e hgrows he => hgrows.trans (.after he.2 z'.queue)) (.refl z.queue) hproject

end

section
variable [Dram] [HostProtocol] {z : Polling} {quiet : Word → Prop}

/-- **A run of the polling host.** -/
theorem Polling.Inv.always (h : z.Inv) {es : List Event}
    (hpolite : Run.Steps Polling.step Polling.Polite z es)
    (hfits : Run.Always Polling.step (fun z => z.queue.Fits) z es) :
    Run.Always Polling.step Polling.Inv z es :=
  Run.always_of_step (fun _ _ hz he => hz.step he.1 he.2.1 he.2.2) h (hpolite.and hfits.steps)

/-- The two agree after every polite run. -/
theorem Polling.Inv.reached {s : State} (hboot : Boot s) {evs : List Event}
    (hpolite : Run.Steps Polling.step Polling.Polite (Polling.boot s) evs)
    (hfits : Run.Always Polling.step (fun z => z.queue.Fits) (Polling.boot s) evs) :
    (Run.run Polling.step (Polling.boot s) evs).Inv ∧
      (Run.run Polling.step (Polling.boot s) evs).sys = Run.run Sys.step (Sys.boot s) evs :=
  ⟨((Polling.Inv.boot hboot).always hpolite hfits).last, (Polling.boot s).run_sys evs⟩

/-- **One exchange.** -/
theorem Polling.Inv.exchange (h : z.Inv) (hready : z.sys.Ready) {p : Poll} {arg : Word}
    {es : List Event} (hpolite : Run.Steps Polling.step Polling.Polite z es)
    (hfits : Run.Always Polling.step (fun z => z.queue.Fits) z es)
    (hex : Exchange quiet (p.item arg) z.sys es) :
    (Run.run Sys.step z.sys es).Ready ∧ ∃ q₁ text, z.queue.Grows q₁ ∧ q₁.Answers p text ∧
      (q₁.poll p).Grows (Run.run Polling.step z es).queue ∧
      dataBytes (Run.run Sys.step z.sys es).fw.dev.out = dataBytes z.sys.fw.dev.out ++ text := by
  have hcmd : p.cmd.loads = false ∧ p.cmd ≠ .memDump ∧ p.cmd ≠ .hbcTxPacket := by
    cases p <;> decide
  have htaken := hex.taken
  obtain ⟨hend, before, b, after, rfl, hrequest⟩ := hex.request hready hcmd.1
  obtain ⟨hbefore, -⟩ := Run.steps_append.mp hpolite
  have hinv : (Run.run Polling.step z before).Inv :=
    Run.always_iff_prefix.mp (h.always hpolite hfits) before (List.prefix_append _ _)
  have hanswer := hrequest.answer hready hcmd.2.1 hcmd.2.2 htaken
  have hsys := z.run_sys before
  have hexecutes : (Run.run Sys.step z.sys before).executes (.ctrl b)
      = some (HostProtocol.code p.cmd, arg) := (if_neg hrequest.pc).trans hrequest.accepts
  have hcommand : (Run.run Sys.step z.sys before).command (.ctrl b) = some (p.cmd, arg) := by
    rw [Sys.command_of_executes, hexecutes, Option.bind_some, decodeCmd_code]
    rfl
  refine ⟨hend, (Run.run Polling.step z before).queue, _, Polling.grows hrequest.waits, ?_, ?_,
    hanswer⟩
  · by_cases hnext : p = .next
    · rw [hnext, PacketQueue.Answers, if_pos rfl, commandMsg, Msg.text, decodeCmd_code]
      rfl
    · have hreplies : p.cmd.replies = true := by
        cases p with
        | next => exact absurd rfl hnext
        | _ => rfl
      rw [PacketQueue.Answers, if_neg hnext]
      refine ⟨_, commandMsg_text hreplies arg _, fun v hv => ?_⟩
      have hreply := (hinv.reader.reply hinv.ring p.poll_cmd hv arg).2
      rwa [hsys] at hreply
  · have hstep : ((Run.run Polling.step z before).step (.ctrl b)).queue
        = (Run.run Polling.step z before).queue.poll p := by
      refine (PacketQueue.after_command (e := .ctrl b) rfl _ _).trans ?_
      rw [hsys, hcommand, Option.bind_some, Poll.poll_cmd]
      rfl
    have hanswers := hrequest.answers
    rw [← hsys] at hanswers
    rw [← hstep, Run.run_append, Run.run_cons]
    exact Polling.grows hanswers

/-- **Exchanges one after the other** are a session with the queue. -/
theorem Polling.Inv.session (h : z.Inv) (hready : z.sys.Ready) {ps : List (Poll × Word)}
    {es : List Event} (hpolite : Run.Steps Polling.step Polling.Polite z es)
    (hfits : Run.Always Polling.step (fun z => z.queue.Fits) z es)
    (hes : Exchanges quiet (pollItems ps) z.sys es) :
    ∃ text, Session z.queue (ps.map Prod.fst) text (Run.run Polling.step z es).queue ∧
      dataBytes (Run.run Sys.step z.sys es).fw.dev.out = dataBytes z.sys.fw.dev.out ++ text := by
  induction ps generalizing z es with
  | nil =>
    obtain rfl := hes.unnil
    exact ⟨[], .nil (.refl z.queue), (List.append_nil _).symm⟩
  | cons r ps ih =>
    obtain ⟨first, rest, rfl, hex, hes⟩ := hes.uncons
    obtain ⟨hpolite₁, hpolite₂⟩ := Run.steps_append.mp hpolite
    obtain ⟨hfits₁, hfits₂⟩ := Run.Always.append.mp hfits
    obtain ⟨hend, q₁, text₁, hbefore, hanswer, hafter, hout₁⟩ :=
      h.exchange hready hpolite₁ hfits₁ hex
    have hnext : (Run.run Polling.step z first).Inv := (h.always hpolite₁ hfits₁).last
    have hsys := z.run_sys first
    rw [← hsys] at hend hes hout₁
    obtain ⟨text₂, hsession, hout₂⟩ := ih hnext hend hpolite₂ hfits₂ hes
    rw [hsys] at hout₁ hout₂
    refine ⟨text₁ ++ text₂, ?_, ?_⟩
    · rw [Run.run_append]
      exact .cons hbefore hanswer (hsession.grow hafter)
    · rw [Run.run_append, hout₂, hout₁, List.append_assoc]

/-- Packets that wait are read out. -/
theorem Polling.Inv.packets (h : z.Inv) (hready : z.sys.Ready) {es : List Event}
    {ps more : List (List Word)} {cs : List (Poll × Word)}
    (hcs : cs.map Prod.fst = ps.flatMap readOut)
    (hpolite : Run.Steps Polling.step Polling.Polite z es)
    (hfits : Run.Always Polling.step (fun z => z.queue.Fits) z es)
    (hes : Exchanges quiet (pollItems cs) z.sys es) (hwaiting : z.queue.waiting = ps ++ more) :
    (∃ texts, List.Forall₂ IsReadOut ps texts ∧
      dataBytes (Run.run Sys.step z.sys es).fw.dev.out
        = dataBytes z.sys.fw.dev.out ++ texts.flatten) ∧
    (Run.run Polling.step z es).queue.dropped = z.queue.dropped ++ ps ∧
    more <+: (Run.run Polling.step z es).queue.waiting := by
  obtain ⟨text, hsession, hout⟩ := h.session hready hpolite hfits hes
  rw [hcs] at hsession
  obtain ⟨texts, hall, rfl, hdropped, hmore⟩ := hsession.packets hwaiting
  exact ⟨⟨texts, hall, hout⟩, hdropped, hmore⟩

/-- **The receive commands are a queue.** A host that goes on exchanging receive commands gets for
each of them what the queue of the packets received says at that moment, whatever the main loop, the
ports and the receiver do in between. -/
theorem polls_answered {s : State} (hboot : Boot s) {evs es : List Event} {ps : List (Poll × Word)}
    (hpolite : Run.Steps Polling.step Polling.Polite (Polling.boot s) (evs ++ es))
    (hfits : Run.Always Polling.step (fun z => z.queue.Fits) (Polling.boot s) (evs ++ es))
    (hready : (Run.run Sys.step (Sys.boot s) evs).Ready)
    (hes : Exchanges quiet (pollItems ps) (Run.run Sys.step (Sys.boot s) evs) es) :
    ∃ text, Session (Run.run Polling.step (Polling.boot s) evs).queue (ps.map Prod.fst) text
        (Run.run Polling.step (Polling.boot s) (evs ++ es)).queue ∧
      dataBytes (Run.run Sys.step (Sys.boot s) (evs ++ es)).fw.dev.out
        = dataBytes (Run.run Sys.step (Sys.boot s) evs).fw.dev.out ++ text := by
  obtain ⟨hpolite₁, hpolite₂⟩ := Run.steps_append.mp hpolite
  obtain ⟨hfits₁, hfits₂⟩ := Run.Always.append.mp hfits
  obtain ⟨hinv, hsys⟩ := Polling.Inv.reached hboot hpolite₁ hfits₁
  rw [← hsys] at hready hes
  rw [Run.run_append, Run.run_append, ← hsys]
  exact hinv.session hready hpolite₂ hfits₂ hes

/-- **Reading packets out.** A host that asks for the count, reads as many words as the packet has
and drops it, and so on with the next one, gets the packets waiting whole, the oldest first and once
each, whatever comes in meanwhile. -/
theorem packets_read {s : State} (hboot : Boot s) {evs es : List Event} {ps more : List (List Word)}
    {cs : List (Poll × Word)} (hcs : cs.map Prod.fst = ps.flatMap readOut)
    (hpolite : Run.Steps Polling.step Polling.Polite (Polling.boot s) (evs ++ es))
    (hfits : Run.Always Polling.step (fun z => z.queue.Fits) (Polling.boot s) (evs ++ es))
    (hready : (Run.run Sys.step (Sys.boot s) evs).Ready)
    (hes : Exchanges quiet (pollItems cs) (Run.run Sys.step (Sys.boot s) evs) es)
    (hwaiting : (Run.run Polling.step (Polling.boot s) evs).queue.waiting = ps ++ more) :
    (∃ texts, List.Forall₂ IsReadOut ps texts ∧
      dataBytes (Run.run Sys.step (Sys.boot s) (evs ++ es)).fw.dev.out
        = dataBytes (Run.run Sys.step (Sys.boot s) evs).fw.dev.out ++ texts.flatten) ∧
    (Run.run Polling.step (Polling.boot s) (evs ++ es)).queue.dropped
      = (Run.run Polling.step (Polling.boot s) evs).queue.dropped ++ ps ∧
    more <+: (Run.run Polling.step (Polling.boot s) (evs ++ es)).queue.waiting := by
  obtain ⟨hpolite₁, hpolite₂⟩ := Run.steps_append.mp hpolite
  obtain ⟨hfits₁, hfits₂⟩ := Run.Always.append.mp hfits
  obtain ⟨hinv, hsys⟩ := Polling.Inv.reached hboot hpolite₁ hfits₁
  rw [← hsys] at hready hes
  rw [Run.run_append, Run.run_append, ← hsys]
  exact hinv.packets hready hcs hpolite₂ hfits₂ hes hwaiting

/-- What the polling host gets about a frame: how many packets wait, the size of this one, its
header, its words `ws`, and the acknowledge of the last command. -/
def Frame.IsPolled (f : Frame) (seed : Word) (ws : List Word) (text : List Byte) : Prop :=
  ∃ n, f.Received seed ws ∧
    text = answerBytes n ++ answerBytes (BitVec.ofNat 32 (8 + 4 * ws.length))
      ++ answerBytes (headerWord f.headerInfo) ++ ws.flatMap answerBytes ++ bareAck

omit [HostProtocol] in
/-- A frame in the ring. -/
theorem Frame.Received.packetClosed {f : Frame} {seed : Word} {ws : List Word}
    (h : f.Received seed ws) : packetClosed f.words
      = BitVec.ofNat 32 (8 + 4 * ws.length) :: headerWord f.headerInfo :: ws := by
  have hbody := h.body
  rw [HbcMac.packetClosed, hbody]
  congr 2
  cases hwords : f.words with
  | nil =>
    rw [hwords] at hbody
    cases hbody
  | cons w rest =>
    rw [hwords] at hbody
    obtain ⟨-, hrest⟩ := List.cons.inj hbody
    rw [packetBytes, ← hrest, length_descramble]

/-- **From device to device by polling.** One device sends frames, from whichever branch and with
whatever in between; another one receives them, and its host reads them out. It gets the header and
the words each frame was built from, in the order of the frames. -/
theorem frames_polled {s t : State} (hsender : Boot t) {sends : List Event}
    (hseed : Run.Steps Sys.step (fun y e => KeepsSeed (y.command e)) (Sys.boot t) sends)
    (hboot : Boot s) {evs es : List Event} {n : ℕ} {more : List (List Word)}
    {cs : List (Poll × Word)}
    (hcs : cs.map Prod.fst
      = (((Run.run Sys.step (Sys.boot t) sends).frames.take n).map Frame.words).flatMap readOut)
    (hpolite : Run.Steps Polling.step Polling.Polite (Polling.boot s) (evs ++ es))
    (hfits : Run.Always Polling.step (fun z => z.queue.Fits) (Polling.boot s) (evs ++ es))
    (hready : (Run.run Sys.step (Sys.boot s) evs).Ready)
    (hes : Exchanges quiet (pollItems cs) (Run.run Sys.step (Sys.boot s) evs) es)
    (hwaiting : (Run.run Polling.step (Polling.boot s) evs).queue.waiting
      = ((Run.run Sys.step (Sys.boot t) sends).frames.take n).map Frame.words ++ more) :
    ∃ texts : List (List Byte),
      texts.length = ((Run.run Sys.step (Sys.boot t) sends).frames.take n).length ∧
      (∀ k (f : Frame) text, (Run.run Sys.step (Sys.boot t) sends).frames[k]? = some f →
        texts[k]? = some text → ∃ ws, (Sys.boot t).BuildsFrom sends k ws ∧
          f.IsPolled (if k % 2 = 0 then 0 else 1) ws text) ∧
      dataBytes (Run.run Sys.step (Sys.boot s) (evs ++ es)).fw.dev.out
        = dataBytes (Run.run Sys.step (Sys.boot s) evs).fw.dev.out ++ texts.flatten := by
  have hframes := fun k f => frame_received hsender hseed (k := k) (f := f)
  generalize (Run.run Sys.step (Sys.boot t) sends).frames = frames at hcs hwaiting hframes ⊢
  obtain ⟨hpolite₁, hpolite₂⟩ := Run.steps_append.mp hpolite
  obtain ⟨hfits₁, hfits₂⟩ := Run.Always.append.mp hfits
  obtain ⟨hinv, hsys⟩ := Polling.Inv.reached hboot hpolite₁ hfits₁
  rw [← hsys] at hready hes
  rw [Run.run_append, ← hsys]
  obtain ⟨⟨texts, hall, hout⟩, -⟩ := hinv.packets hready hcs hpolite₂ hfits₂ hes hwaiting
  obtain ⟨hlength, hreads⟩ := List.forall₂_iff_get.mp hall
  rw [List.length_map] at hlength
  refine ⟨texts, hlength.symm, fun k f text hf htext => ?_, hout⟩
  obtain ⟨ws, hbuilt, hreceived⟩ := hframes k f hf
  obtain ⟨hk, rfl⟩ := List.getElem?_eq_some_iff.mp htext
  obtain ⟨count, hread⟩ := hreads k (by rw [List.length_map]; omega) hk
  have hword : ((frames.take n).map Frame.words).get ⟨k, by rw [List.length_map]; omega⟩
      = f.words := by
    obtain ⟨_, rfl⟩ := List.getElem?_eq_some_iff.mp hf
    rw [List.get_eq_getElem, List.getElem_map, List.getElem_take]
  rw [hword, hreceived.packetClosed] at hread
  refine ⟨ws, hbuilt, count, hreceived, hread.trans ?_⟩
  simp only [List.flatMap_cons, List.append_assoc]

end

/-! ## One packet read while another comes in -/

section
variable [Board] [HostProtocol]

/-- An exchange without memory in question. -/
theorem exchange_of_quiet {i : Item} {y : Sys} {es : List Event}
    (hbytes : es.filterMap Event.byte = i.encode)
    (hfree : Run.Steps Sys.step (fun y e => e.isMain = true →
      y.pc ≠ .psocCall ∧ y.pc ≠ .rxCall true) y es)
    (htaken : spiPending (Run.run Sys.step y es).fw.dev = 0) :
    Exchange (fun _ => False) i y es := by
  refine ⟨hbytes, hfree.mono fun z e he => ?_, htaken⟩
  cases e with
  | main => exact ⟨(he rfl).1, fun hcall => (he rfl).2 hcall.1⟩
  | ctrl b | data => trivial
  | rxData arr | rxReady arr => exact fun _ hc => hc.elim

end

/-- The command, the events `mid` and then the answer. -/
def asks [HostProtocol] (p : Poll) (mid : List Event) : List Event :=
  (p.item 0).encode.map .ctrl ++ mid ++ List.replicate 7 .data

/-- The frame that `CMD_HBC_TX_TRIGGER` has sent from a clear memory. -/
def heardFrame : List Event := [.rxReady [[0x7B140030, 0, 0, 0, 0, 0]]]

/-- The commands that read it out: a marker and six words. -/
def onePolls : List (Poll × Word) :=
  [(.ready, 0), (.read, 0), (.read, 0), (.read, 0), (.read, 0), (.read, 0), (.read, 0), (.read, 0),
    (.next, 0)]

/-- The host reads the frame, while another packet and the start of a third one come in. -/
def readsOne [HostProtocol] : List Event :=
  asks .ready [.main] ++ (asks .read [.rxReady [[0x900, 8]]] ++ (asks .read [.main, .main] ++
    (asks .read [] ++ (asks .read [.main] ++ (asks .read [] ++ (asks .read [] ++
      (asks .read [.main] ++ (asks .next [.rxData [[0x800]]] ++ []))))))))

theorem exchanges_readsOne :
    letI := plainDram
    letI := plainProtocol
    Exchanges (fun _ => False) (pollItems onePolls)
      (Run.run Sys.step (Sys.boot bootState) heardFrame) readsOne := by
  let := plainDram
  let := plainProtocol
  refine .cons (exchange_of_quiet ?_ ?_ ?_) (.cons (exchange_of_quiet ?_ ?_ ?_)
    (.cons (exchange_of_quiet ?_ ?_ ?_) (.cons (exchange_of_quiet ?_ ?_ ?_)
      (.cons (exchange_of_quiet ?_ ?_ ?_) (.cons (exchange_of_quiet ?_ ?_ ?_)
        (.cons (exchange_of_quiet ?_ ?_ ?_) (.cons (exchange_of_quiet ?_ ?_ ?_)
          (.cons (exchange_of_quiet ?_ ?_ ?_) (.nil _)))))))))
  all_goals decide +kernel

theorem readsOne_polite :
    letI := plainDram
    letI := plainProtocol
    Run.Steps Polling.step Polling.Polite (Polling.boot bootState) (heardFrame ++ readsOne) ∧
      Run.Always Polling.step (fun z => z.queue.Fits) (Polling.boot bootState)
        (heardFrame ++ readsOne) := by
  decide +kernel

theorem ready_heardFrame :
    letI := plainDram
    letI := plainProtocol
    (Run.run Sys.step (Sys.boot bootState) heardFrame).Ready :=
  ⟨by decide, ⟨rfl, rfl⟩, by decide +kernel⟩

/-- A frame is read, and the answers are those of the queue. -/
theorem polls_answered_frame :
    letI := plainDram
    letI := plainProtocol
    ∃ text, Session (Run.run Polling.step (Polling.boot bootState) heardFrame).queue
        (onePolls.map Prod.fst) text
        (Run.run Polling.step (Polling.boot bootState) (heardFrame ++ readsOne)).queue ∧
      dataBytes (Run.run Sys.step (Sys.boot bootState) (heardFrame ++ readsOne)).fw.dev.out
        = dataBytes (Run.run Sys.step (Sys.boot bootState) heardFrame).fw.dev.out ++ text :=
  @polls_answered plainDram plainProtocol (fun _ => False) bootState bootState_boot heardFrame
    (@readsOne plainProtocol) onePolls readsOne_polite.1 readsOne_polite.2 ready_heardFrame
    exchanges_readsOne

/-- The packet behind it stays. -/
theorem packets_read_frame :
    letI := plainDram
    letI := plainProtocol
    (∃ texts, List.Forall₂ IsReadOut [[0x7B140030, 0, 0, 0, 0, 0]] texts ∧
      dataBytes (Run.run Sys.step (Sys.boot bootState) (heardFrame ++ readsOne)).fw.dev.out
        = dataBytes (Run.run Sys.step (Sys.boot bootState) heardFrame).fw.dev.out
          ++ texts.flatten) ∧
    (Run.run Polling.step (Polling.boot bootState) (heardFrame ++ readsOne)).queue.dropped
      = (Run.run Polling.step (Polling.boot bootState) heardFrame).queue.dropped
        ++ [[0x7B140030, 0, 0, 0, 0, 0]] ∧
    [] <+: (Run.run Polling.step (Polling.boot bootState) (heardFrame ++ readsOne)).queue.waiting :=
  @packets_read plainDram plainProtocol (fun _ => False) bootState bootState_boot heardFrame
    (@readsOne plainProtocol) [[0x7B140030, 0, 0, 0, 0, 0]] [] onePolls rfl readsOne_polite.1
    readsOne_polite.2 ready_heardFrame exchanges_readsOne rfl

/-- The sender of the frame. -/
def sendsOne [HostProtocol] : List Event :=
  sending .hbcTxTrigger 20 ++ List.replicate 4 .main

/-- It is the frame that has been sent. -/
theorem heardFrame_sent :
    letI := plainDram
    letI := plainProtocol
    Run.Steps Sys.step (fun y e => KeepsSeed (y.command e)) (Sys.boot bootState) sendsOne ∧
      onePolls.map Prod.fst = (((Run.run Sys.step (Sys.boot bootState) sendsOne).frames.take 1).map
        Frame.words).flatMap readOut ∧
      (Run.run Polling.step (Polling.boot bootState) heardFrame).queue.waiting
        = ((Run.run Sys.step (Sys.boot bootState) sendsOne).frames.take 1).map Frame.words
          ++ [] := by
  decide +kernel

/-- A triggered frame is polled at the other device. -/
theorem frames_polled_triggered :
    letI := plainDram
    letI := plainProtocol
    ∃ texts : List (List Byte),
      texts.length = ((Run.run Sys.step (Sys.boot bootState) sendsOne).frames.take 1).length ∧
      (∀ k (f : Frame) text,
        (Run.run Sys.step (Sys.boot bootState) sendsOne).frames[k]? = some f →
        texts[k]? = some text → ∃ ws, (Sys.boot bootState).BuildsFrom sendsOne k ws ∧
          f.IsPolled (if k % 2 = 0 then 0 else 1) ws text) ∧
      dataBytes (Run.run Sys.step (Sys.boot bootState) (heardFrame ++ readsOne)).fw.dev.out
        = dataBytes (Run.run Sys.step (Sys.boot bootState) heardFrame).fw.dev.out
          ++ texts.flatten :=
  @frames_polled plainDram plainProtocol (fun _ => False) bootState bootState bootState_boot
    (@sendsOne plainProtocol) heardFrame_sent.1 bootState_boot heardFrame (@readsOne plainProtocol) 1 []
    onePolls heardFrame_sent.2.1 readsOne_polite.1 readsOne_polite.2 ready_heardFrame
    exchanges_readsOne heardFrame_sent.2.2

end HbcMac

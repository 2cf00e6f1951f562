import HbcMac.Lib.Stream
import HbcMac.MainLoop
import Mathlib.Data.List.Iterate

/-!
# Dumps

A dump sends the bytes of the words at consecutive addresses. Each word is fetched when its
first byte is due, so it is the word memory holds at that moment.
-/

namespace HbcMac

open LittleEndian

/-! ## What a dump is to say -/

/-- A dump as it is registered: where it reads, the address of its first word and the number
of its bytes. -/
structure Dump where
  fromRx : Bool
  start : Word
  bytes : ℕ

/-- A word read from memory, with its address. -/
abbrev Fetch := Word × Word

/-- The bytes of the words read. -/
def fetchedBytes (reads : List Fetch) : List Byte := (reads.map Prod.snd).flatMap bytes

/-- Four bytes for each word. -/
theorem length_fetchedBytes (reads : List Fetch) :
    (fetchedBytes reads).length = 4 * reads.length := by
  rw [fetchedBytes, length_flatMap_bytes, List.length_map]

/-- The words in their order. -/
theorem fetchedBytes_append (reads more : List Fetch) :
    fetchedBytes (reads ++ more) = fetchedBytes reads ++ fetchedBytes more := by
  rw [fetchedBytes, List.map_append, List.flatMap_append]
  rfl

/-- Byte `i` of the last word read. -/
theorem getElem?_fetchedBytes_last (reads : List Fetch) (r : Fetch) {i : ℕ} (hi : i < 4) :
    (fetchedBytes (reads ++ [r]))[4 * reads.length + i]? = some (byteAt r.2 i) := by
  have hdiv : (4 * reads.length + i) / 4 = reads.length := by omega
  have hmod : (4 * reads.length + i) % 4 = i := by omega
  have hlen : (reads.map Prod.snd).length ≤ reads.length := by rw [List.length_map]
  rw [fetchedBytes, getElem?_flatMap_bytes, hdiv, hmod, List.map_append,
    List.getElem?_append_right hlen, List.length_map, Nat.sub_self]
  rfl

namespace Dump

variable {d : Dump} {reads : List Fetch}

/-- The address after `a`: a dump of received data goes round the ring. -/
def next (d : Dump) (a : Word) : Word := if d.fromRx then ringNext a else a + 4

/-- The addresses of all its words. -/
def addrs (d : Dump) : List Word := List.iterate d.next d.start ((d.bytes + 3) / 4)

/-- Its bytes, the words being read as in `reads`. -/
def text (d : Dump) (reads : List Fetch) : List Byte := (fetchedBytes reads).take d.bytes

/-- How many words a dump fetches. -/
theorem length_of_addrs (h : reads.map Prod.fst = d.addrs) :
    reads.length = (d.bytes + 3) / 4 := by
  rw [← List.length_map Prod.fst, h, addrs, List.length_iterate]

/-- It has as many bytes as were asked for. -/
theorem length_text (h : reads.map Prod.fst = d.addrs) : (d.text reads).length = d.bytes := by
  have hlen := length_of_addrs h
  rw [text, List.length_take, length_fetchedBytes]
  omega

end Dump

/-! ## The dump in the registers -/

/-- The address the next word of the dump is read from. -/
def dumpCursor (s : State) : Word :=
  if s.spi.dumpHbcRx then s.rx.rdBufAddr
  else if s.spi.dumpIndex = 0 then s.spi.dumpAddr else s.spi.dumpAddr + 4

section
variable [Board]

/-- The word read for the next byte of a dump, if it is the first one of its word. -/
def dumpReads (s : State) : List Fetch :=
  if s.spi.dumpIndex = 0 then [(dumpCursor s, s.mem.get (dumpCursor s))] else []

/-- The word read by a call of `hbc_data_irq`. -/
def dataReads (s : State) : List Fetch :=
  if s.spi.ackBytes = 0 ∧ s.spi.replyBytes = 0 ∧ s.spi.dumpingMem ≠ 0 then dumpReads s else []

/-- At the first byte of a word the word is fetched. -/
theorem dumpFetch_first {s : State} (h : s.spi.dumpIndex = 0) :
    (dumpFetch s).spi.wrData = s.mem.get (dumpCursor s) ∧
    (dumpFetch s).rx.rdBufAddr
      = if s.spi.dumpHbcRx then ringNext s.rx.rdBufAddr else s.rx.rdBufAddr := by
  rw [dumpFetch, if_pos h, dumpCursor, if_pos h]
  cases s.spi.dumpHbcRx with
  | false => exact ⟨rfl, rfl⟩
  | true => exact ⟨rfl, rfl⟩

omit [Board] in
/-- The cursor depends on the registers of the port and, for received data, on the reader. -/
theorem dumpCursor_kept {s s' : State} (h : PortKept s s')
    (hrd : s.spi.dumpHbcRx = true → s'.rx.rdBufAddr = s.rx.rdBufAddr) :
    dumpCursor s' = dumpCursor s := by
  rw [dumpCursor, dumpCursor, h.dumpHbcRx, h.dumpIndex, h.dumpAddr]
  cases hrx : s.spi.dumpHbcRx with
  | false => rfl
  | true => exact hrd hrx

/-- At the others it is at hand. -/
theorem dumpFetch_more {s : State} (h : s.spi.dumpIndex ≠ 0) : dumpFetch s = s := if_neg h

/-- The cursor goes on with the first byte of each word. -/
theorem dumpCursor_dataDump {d : Dump} {s : State} (hrx : s.spi.dumpHbcRx = d.fromRx) :
    dumpCursor (dataDump s) = if s.spi.dumpIndex = 0 then d.next (dumpCursor s) else dumpCursor s := by
  have hnext : d.next (dumpCursor s)
      = if s.spi.dumpHbcRx then ringNext (dumpCursor s) else dumpCursor s + 4 := by
    rw [Dump.next, hrx]
  rw [hnext, dataDump_eq, dumpCursor, dumpCursor]
  dsimp only
  by_cases hidx : s.spi.dumpIndex = 0
  · have hone : ¬ s.spi.dumpIndex + 1 = 4 := by omega
    rw [if_pos hidx, if_pos hidx, if_neg hone, if_neg hone, (dumpFetch_first hidx).2,
      if_neg (Nat.succ_ne_zero s.spi.dumpIndex)]
    cases s.spi.dumpHbcRx with
    | false => rfl
    | true => rfl
  · rw [if_neg hidx, if_neg hidx, dumpFetch_more hidx]
    by_cases hlast : s.spi.dumpIndex + 1 = 4
    · rw [if_pos hlast, if_pos hlast, if_pos rfl]
    · rw [if_neg hlast, if_neg hlast, if_neg (Nat.succ_ne_zero s.spi.dumpIndex)]

end

/-- Of the dump `d` the bytes `dumped` have been written from the words `reads`, and the rest
is in the registers. -/
structure Dumping (d : Dump) (dumped : List Byte) (reads : List Fetch) (s : State) : Prop where
  fromRx : s.spi.dumpHbcRx = d.fromRx
  left : dumped.length + s.spi.dumpingMem = d.bytes
  index : s.spi.dumpIndex < 4
  place : dumped.length + (if s.spi.dumpIndex = 0 then 0 else 4 - s.spi.dumpIndex)
    = 4 * reads.length
  text : dumped <+: fetchedBytes reads
  word : s.spi.dumpIndex ≠ 0 → ∃ pre a, reads = pre ++ [(a, s.spi.wrData)]
  addrs : reads.map Prod.fst = List.iterate d.next d.start reads.length
  cursor : s.spi.dumpingMem ≠ 0 → dumpCursor s = d.next^[reads.length] d.start

namespace Dumping

variable {d : Dump} {dumped : List Byte} {reads : List Fetch} {s s' : State}

/-- Nothing has been written yet. -/
theorem start (hrx : s.spi.dumpHbcRx = d.fromRx) (hidx : s.spi.dumpIndex = 0)
    (hbytes : s.spi.dumpingMem = d.bytes) (hcursor : dumpCursor s = d.start) :
    Dumping d [] [] s := by
  refine ⟨hrx, ?_, ?_, ?_, List.nil_prefix, fun hne => absurd hidx hne, rfl, fun _ => hcursor⟩
  · rw [hbytes]
    exact Nat.zero_add d.bytes
  · rw [hidx]
    decide
  · rw [if_pos hidx]
    rfl

/-- What leaves port and read cursor alone leaves the dump where it is. -/
theorem kept (h : Dumping d dumped reads s) (hport : PortKept s s')
    (hrd : s.spi.dumpingMem ≠ 0 → s.spi.dumpHbcRx = true → s'.rx.rdBufAddr = s.rx.rdBufAddr) :
    Dumping d dumped reads s' := by
  obtain ⟨h1, h2, h3, h4, h5, h6, h7, h8⟩ := h
  refine ⟨hport.dumpHbcRx.trans h1, ?_, ?_, ?_, h5, ?_, h7, ?_⟩
  · rw [hport.dumpingMem]
    exact h2
  · rw [hport.dumpIndex]
    exact h3
  · rw [hport.dumpIndex]
    exact h4
  · rw [hport.dumpIndex, hport.wrData]
    exact h6
  · intro hdump
    rw [hport.dumpingMem] at hdump
    rw [dumpCursor_kept hport (hrd hdump)]
    exact h8 hdump

/-- It is over when nothing is left. -/
theorem complete (h : Dumping d dumped reads s) (hzero : s.spi.dumpingMem = 0) :
    reads.map Prod.fst = d.addrs ∧ dumped = d.text reads := by
  have hleft := h.left
  have hplace := h.place
  have hindex := h.index
  have hcount : reads.length = (d.bytes + 3) / 4 := by
    split at hplace <;> omega
  constructor
  · rw [h.addrs, hcount]
    rfl
  · have hlen : dumped.length = d.bytes := by omega
    rw [Dump.text, ← hlen]
    exact List.prefix_iff_eq_take.mp h.text

/-- The bytes left complete it, whatever the words still to be read. -/
theorem completes (h : Dumping d dumped reads s) :
    ∃ rest more, (reads ++ more).map Prod.fst = d.addrs ∧ dumped ++ rest = d.text (reads ++ more) ∧
      rest.length = s.spi.dumpingMem := by
  have hleft := h.left
  have hplace := h.place
  have hindex := h.index
  have hcount : reads.length ≤ (d.bytes + 3) / 4 := by
    split at hplace <;> omega
  obtain ⟨n, hn⟩ := Nat.exists_eq_add_of_le hcount
  have hmore (words : List Word) :
      (words.map fun a => (a, (0 : Word))).map Prod.fst = words := by
    rw [List.map_map]
    exact List.map_id words
  have haddrs : (reads ++ (List.iterate d.next (d.next^[reads.length] d.start) n).map
      fun a => (a, (0 : Word))).map Prod.fst = d.addrs := by
    rw [List.map_append, hmore, h.addrs, Dump.addrs, hn, List.iterate_add]
  generalize (List.iterate d.next (d.next^[reads.length] d.start) n).map
    (fun a => (a, (0 : Word))) = more at haddrs
  have hlen := Dump.length_text haddrs
  have hpre : dumped <+: d.text (reads ++ more) := by
    have hall : dumped <+: fetchedBytes (reads ++ more) := by
      rw [fetchedBytes_append]
      exact h.text.trans (List.prefix_append _ _)
    refine List.prefix_of_prefix_length_le hall (List.take_prefix _ _) ?_
    show dumped.length ≤ (d.text (reads ++ more)).length
    omega
  obtain ⟨rest, hrest⟩ := hpre
  refine ⟨rest, more, haddrs, hrest, ?_⟩
  have hsum := congrArg List.length hrest
  rw [List.length_append, hlen] at hsum
  omega

variable [Board]

/-- The first byte of a word. -/
theorem byte_first (h : Dumping d dumped reads s) (hdump : s.spi.dumpingMem ≠ 0)
    (hidx : s.spi.dumpIndex = 0) :
    ∃ b, dataBytes (dataDump s).out = dataBytes s.out ++ [b] ∧
      Dumping d (dumped ++ [b]) (reads ++ dumpReads s) (dataDump s) := by
  have hcursor := dumpCursor_dataDump h.fromRx
  have hleft := h.left
  have hplace := h.place
  have haddr := h.cursor hdump
  have hword := (dumpFetch_first hidx).1
  have hone : ¬ s.spi.dumpIndex + 1 = 4 := by omega
  rw [if_pos hidx] at hcursor hplace
  rw [dumpReads, if_pos hidx]
  rw [dataDump_eq] at hcursor ⊢
  refine ⟨_, dataBytes_portWrite _ _, ⟨h.fromRx, ?_, ?_, ?_, ?_, ?_, ?_, ?_⟩⟩
  · rw [List.length_append, List.length_singleton]
    dsimp only
    omega
  · dsimp only
    rw [if_neg hone]
    omega
  · dsimp only
    rw [if_neg hone, if_neg (Nat.succ_ne_zero _), hidx, List.length_append, List.length_append,
      List.length_singleton, List.length_singleton]
    omega
  · have hall : dumped <+: fetchedBytes (reads ++ [(dumpCursor s, s.mem.get (dumpCursor s))]) := by
      rw [fetchedBytes_append]
      exact h.text.trans (List.prefix_append _ _)
    refine Stream.prefix_snoc hall ?_
    have hlen : dumped.length = 4 * reads.length + 0 := hplace
    rw [hlen, getElem?_fetchedBytes_last _ _ (by decide), hword, hidx]
  · intro _
    dsimp only
    rw [hword]
    exact ⟨reads, dumpCursor s, rfl⟩
  · rw [List.map_append, h.addrs, List.length_append, List.length_singleton, List.iterate_add,
      ← haddr]
    rfl
  · intro _
    rw [hcursor, haddr, List.length_append, List.length_singleton, Function.iterate_succ_apply']

/-- The three others. -/
theorem byte_more (h : Dumping d dumped reads s) (hdump : s.spi.dumpingMem ≠ 0)
    (hidx : s.spi.dumpIndex ≠ 0) :
    ∃ b, dataBytes (dataDump s).out = dataBytes s.out ++ [b] ∧
      Dumping d (dumped ++ [b]) (reads ++ dumpReads s) (dataDump s) := by
  have hcursor := dumpCursor_dataDump h.fromRx
  have hleft := h.left
  have hplace := h.place
  have hindex := h.index
  obtain ⟨pre, a, hreads⟩ := h.word hidx
  rw [if_neg hidx] at hcursor hplace
  rw [dumpReads, if_neg hidx, List.append_nil]
  rw [dataDump_eq] at hcursor ⊢
  refine ⟨_, dataBytes_portWrite _ _, ⟨h.fromRx, ?_, ?_, ?_, ?_, ?_, h.addrs, ?_⟩⟩
  · rw [List.length_append, List.length_singleton]
    dsimp only
    omega
  · dsimp only
    split <;> omega
  · dsimp only
    rw [List.length_append, List.length_singleton]
    by_cases hlast : s.spi.dumpIndex + 1 = 4
    · rw [if_pos hlast, if_pos rfl]
      omega
    · rw [if_neg hlast, if_neg (Nat.succ_ne_zero _)]
      omega
  · refine Stream.prefix_snoc h.text ?_
    have hcount : reads.length = pre.length + 1 := by rw [hreads, List.length_append]; rfl
    have hlen : dumped.length = 4 * pre.length + s.spi.dumpIndex := by omega
    rw [hlen, hreads, getElem?_fetchedBytes_last _ _ hindex, dumpFetch_more hidx]
  · intro _
    dsimp only
    rw [dumpFetch_more hidx]
    exact ⟨pre, a, hreads⟩
  · intro _
    rw [hcursor]
    exact h.cursor hdump

/-- **A byte of a dump.** -/
theorem byte (h : Dumping d dumped reads s) (hdump : s.spi.dumpingMem ≠ 0) :
    ∃ b, dataBytes (dataDump s).out = dataBytes s.out ++ [b] ∧
      Dumping d (dumped ++ [b]) (reads ++ dumpReads s) (dataDump s) := by
  by_cases hidx : s.spi.dumpIndex = 0
  · exact h.byte_first hdump hidx
  · exact h.byte_more hdump hidx

end Dumping

end HbcMac

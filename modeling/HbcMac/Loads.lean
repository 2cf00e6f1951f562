import HbcMac.TxLoader

/-!
# A whole load

Four bytes of a load make a word in memory. A load that ends inside a word leaves its last bytes
in `rd_data`: the start of the next load clears the byte index and not the word, so they are
ORed into the first word that load completes.
-/

namespace HbcMac

open LittleEndian

/-! ## The bytes of a load as words -/

/-- The words a load writes when it starts with `r` in `rd_data`. -/
def loadedWords (r : Word) : List Byte → List Word
  | b₀ :: b₁ :: b₂ :: b₃ :: p => (r ||| ofBytes b₀ b₁ b₂ b₃) :: loadedWords 0 p
  | _ => []

/-- What the load leaves in `rd_data`. -/
def residue (r : Word) : List Byte → Word
  | _ :: _ :: _ :: _ :: p => residue 0 p
  | p => r ||| packed p

/-- Less than four bytes make no word. -/
theorem loadedWords_short (r : Word) {p : List Byte} (h : p.length < 4) : loadedWords r p = [] := by
  match p, h with
  | [], _ | [_], _ | [_, _], _ | [_, _, _], _ => rfl

/-- With nothing left behind they are the words of the bytes. -/
theorem loadedWords_zero (p : List Byte) : loadedWords 0 p = wordsOf p := by
  induction p using payload_induction with
  | word b₀ b₁ b₂ b₃ p ih =>
    have hzero : (0 : Word) ||| ofBytes b₀ b₁ b₂ b₃ = ofBytes b₀ b₁ b₂ b₃ := BitVec.zero_or
    rw [loadedWords, wordsOf, ih, hzero]
  | short p hshort => rw [loadedWords_short 0 hshort, wordsOf_short hshort]

/-- Only the first word is not made of the bytes of the load alone. -/
theorem loadedWords_eq (r : Word) (p : List Byte) :
    loadedWords r p = (wordsOf p).modifyHead (r ||| ·) := by
  match p with
  | [] | [_] | [_, _] | [_, _, _] => rfl
  | b₀ :: b₁ :: b₂ :: b₃ :: p => rw [loadedWords, loadedWords_zero, wordsOf, List.modifyHead_cons]

/-- One word for four bytes. -/
theorem length_loadedWords (r : Word) (p : List Byte) :
    (loadedWords r p).length = p.length / 4 := by
  rw [loadedWords_eq, List.length_modifyHead, length_wordsOf]

/-- The words of a payload hold its bytes up to the last whole word. -/
theorem wordsOf_bytes (p : List Byte) : (wordsOf p).flatMap bytes = p.take (4 * (p.length / 4)) := by
  induction p using payload_induction with
  | word b₀ b₁ b₂ b₃ p ih =>
    have hlen : 4 * ((b₀ :: b₁ :: b₂ :: b₃ :: p).length / 4) = 4 * (p.length / 4) + 4 := by
      simp only [List.length_cons]
      omega
    rw [wordsOf, List.flatMap_cons, bytes_ofBytes, ih, hlen]
    rfl
  | short p hshort =>
    rw [Nat.div_eq_of_lt hshort, wordsOf_short hshort]
    rfl

/-- Whole words leave nothing behind. -/
theorem residue_of_dvd {p : List Byte} (h : 4 ∣ p.length) : residue 0 p = 0 := by
  induction p using payload_induction with
  | word b₀ b₁ b₂ b₃ p ih =>
    have hrest : 4 ∣ p.length := by
      simp only [List.length_cons] at h
      omega
    rw [residue, ih hrest]
  | short p hshort =>
    have hnil : p = [] := List.length_eq_zero_iff.mp (by omega)
    rw [hnil]
    rfl

/-- A byte that completes a word. -/
theorem loaded_snoc_word {p : List Byte} (h : p.length % 4 = 3) (r : Word) (b : Byte) :
    loadedWords r (p ++ [b]) = loadedWords r p ++ [residue r p ||| place b 3]
      ∧ residue r (p ++ [b]) = 0 := by
  induction p using payload_induction generalizing r with
  | word b₀ b₁ b₂ b₃ p ih =>
    have hrest : p.length % 4 = 3 := by
      simp only [List.length_cons] at h
      omega
    obtain ⟨hwords, hres⟩ := ih hrest 0
    simp only [List.cons_append, loadedWords, residue, hwords, hres, and_self]
  | short p hshort =>
    obtain ⟨b₀, b₁, b₂, rfl⟩ := List.length_eq_three.mp (by omega : p.length = 3)
    refine ⟨?_, BitVec.zero_or⟩
    show [r ||| (place b₀ 0 ||| place b₁ 1 ||| place b₂ 2 ||| place b 3)]
      = [r ||| (place b₀ 0 ||| place b₁ 1 ||| place b₂ 2) ||| place b 3]
    simp only [BitVec.or_assoc]

/-- A byte that goes to its place in a word that is not complete yet. -/
theorem loaded_snoc {p : List Byte} (h : p.length % 4 ≠ 3) (r : Word) (b : Byte) :
    loadedWords r (p ++ [b]) = loadedWords r p
      ∧ residue r (p ++ [b]) = residue r p ||| place b (p.length % 4) := by
  induction p using payload_induction generalizing r with
  | word b₀ b₁ b₂ b₃ p ih =>
    have hmod : (b₀ :: b₁ :: b₂ :: b₃ :: p).length % 4 = p.length % 4 := by
      simp only [List.length_cons]
      omega
    rw [hmod] at h ⊢
    obtain ⟨hwords, hres⟩ := ih h 0
    simp only [List.cons_append, loadedWords, residue, hwords, hres, and_self]
  | short p hshort =>
    match p, hshort, h with
    | [], _, _ | [_], _, _ | [_, _], _, _ =>
      refine ⟨rfl, ?_⟩
      simp [residue, packed, BitVec.or_assoc]
    | [_, _, _], _, h => exact absurd rfl h

/-! ## Words at successive addresses -/

/-- The log of the words `ws` written from address `a` on. -/
def wordLog : Word → List Word → List (Word × Word)
  | _, [] => []
  | a, w :: ws => (a, w) :: wordLog (a + 4) ws

theorem txAddr_zero (a : Word) : txAddr a 0 = a := BitVec.add_zero a

/-- Counting from the next word. -/
theorem txAddr_four (a : Word) (i : ℕ) : txAddr a (i + 1) = txAddr (a + 4) i := by
  have hfour : (4 : Word) + BitVec.ofNat 32 (4 * i) = BitVec.ofNat 32 (4 * (i + 1)) := by
    rw [Nat.mul_succ, Nat.add_comm, BitVec.ofNat_add]
    rfl
  rw [txAddr, txAddr, BitVec.add_assoc, hfour]

/-- The writes go to successive addresses. -/
theorem mem_wordLog {a : Word} {ws : List Word} {e : Word × Word} (h : e ∈ wordLog a ws) :
    ∃ i < ws.length, e.1 = txAddr a i := by
  induction ws generalizing a with
  | nil => cases h
  | cons w ws ih =>
    rcases List.mem_cons.mp h with rfl | h
    · exact ⟨0, Nat.succ_pos _, (txAddr_zero a).symm⟩
    · obtain ⟨i, hi, he⟩ := ih h
      exact ⟨i + 1, Nat.succ_lt_succ hi, he.trans (txAddr_four a i).symm⟩

section
variable [Board]

/-- `mem_set_wr_p` and `mem_write` for each of the words. -/
def Mem.storeAt : Word → List Word → Mem → Mem
  | _, [], m => m
  | a, w :: ws, m => storeAt (a + 4) ws (({ m with wrP := a } : Mem).write w)

/-- Words behind words. -/
theorem Mem.storeAt_append (a : Word) (ws ws' : List Word) (m : Mem) :
    m.storeAt a (ws ++ ws') = (m.storeAt a ws).storeAt (txAddr a ws.length) ws' := by
  induction ws generalizing a m with
  | nil => rw [List.nil_append, List.length_nil, txAddr_zero]; rfl
  | cons w ws ih =>
    rw [List.cons_append, storeAt, ih, List.length_cons, txAddr_four]
    rfl

/-- The cells are what the writes leave. -/
theorem Mem.storeAt_cells (a : Word) (ws : List Word) (m : Mem) :
    (m.storeAt a ws).cells = replay m.cells (wordLog a ws) := by
  induction ws generalizing a m with
  | nil => rfl
  | cons w ws ih => rw [storeAt, ih, wordLog, replay_cons, write_cells]

/-- And the log has them. -/
theorem Mem.storeAt_log (a : Word) (ws : List Word) (m : Mem) :
    (m.storeAt a ws).log = m.log ++ wordLog a ws := by
  induction ws generalizing a m with
  | nil => exact (List.append_nil _).symm
  | cons w ws ih => rw [storeAt, ih, wordLog, write_log, List.append_assoc, List.singleton_append]

/-! ## The load branch, byte after byte -/

/-- The registers and the memory after the bytes `p`, from the start of a word on. -/
def afterLoad (p : List Byte) (s : State) : State :=
  { s with
    mem := s.mem.storeAt s.spi.loadAddr (loadedWords s.spi.rdData p)
    spi := { s.spi with
      loadAddr := txAddr s.spi.loadAddr (p.length / 4)
      loadingMem := s.spi.loadingMem - p.length
      loadIndex := p.length % 4
      rdData := residue s.spi.rdData p } }

/-- **A load from the start of a word on.** -/
theorem loadBytes_eq (p : List Byte) {s : State} (h : s.spi.loadIndex = 0) :
    loadBytes p s = acked p.length (afterLoad p s) := by
  induction p using List.reverseRecOn with
  | nil =>
    have hzero : s.spi.rdData ||| (0 : Word) = s.spi.rdData := BitVec.or_zero
    have hload : afterLoad [] s = s := by
      show ({ s with spi := { s.spi with
        loadAddr := txAddr s.spi.loadAddr 0
        loadIndex := 0
        rdData := s.spi.rdData ||| 0 } } : State) = s
      rw [txAddr_zero, hzero, ← h]
    rw [hload]
    exact iterate_ctrlReqNext 0 s
  | append_singleton p b ih =>
    have hsnoc : loadBytes (p ++ [b]) s = ctrlReqNext (loadByte b (loadBytes p s)) :=
      List.foldl_append ..
    have hlen : (p ++ [b]).length = p.length + 1 := List.length_append
    have hcount : s.spi.loadingMem - p.length - 1 = s.spi.loadingMem - (p.length + 1) := by omega
    have hstep : loadByte b (acked p.length (afterLoad p s))
        = acked p.length (afterLoad (p ++ [b]) s) := by
      by_cases hword : p.length % 4 = 3
      · -- the word goes to memory
        obtain ⟨hwords, hres⟩ := loaded_snoc_word hword s.spi.rdData b
        have hindex : (acked p.length (afterLoad p s)).spi.loadIndex + 1 = 4 :=
          congrArg (· + 1) hword
        have hdiv : (p.length + 1) / 4 = p.length / 4 + 1 := by omega
        have hmod : (p.length + 1) % 4 = 0 := by omega
        rw [loadByte_word hindex]
        simp only [acked, afterLoad, hlen, hwords, hres, hdiv, hmod, hword, hcount,
          Mem.storeAt_append, length_loadedWords, ← txAddr_succ]
        rfl
      · obtain ⟨hwords, hres⟩ := loaded_snoc hword s.spi.rdData b
        have hindex : (acked p.length (afterLoad p s)).spi.loadIndex + 1 ≠ 4 := by
          show p.length % 4 + 1 ≠ 4
          omega
        have hdiv : (p.length + 1) / 4 = p.length / 4 := by omega
        have hmod : (p.length + 1) % 4 = p.length % 4 + 1 := by omega
        rw [loadByte_within hindex]
        simp only [acked, afterLoad, hlen, hwords, hres, hdiv, hmod, hcount]
    rw [hsnoc, ih, hstep, ctrlReqNext_acked, hlen]

/-! ## What is in memory afterwards -/

/-- A cell that none of the addresses selects keeps its word. -/
theorem replay_wordLog_of_ne {cells : Word → Word} {a : Word} {ws : List Word} {c : Word}
    (h : ∀ i < ws.length, c ≠ Board.cell (txAddr a i)) : replay cells (wordLog a ws) c = cells c :=
  replay_of_ne fun e he => by
    obtain ⟨i, hi, haddr⟩ := mem_wordLog he
    rw [haddr]
    exact h i hi

end

section
variable [Dram]

/-- The words are at their addresses, as long as those are addresses of the memory. -/
theorem replay_wordLog_getElem {cells : Word → Word} {a : Word} {ws : List Word}
    (ha : 4 ∣ a.toNat) (hfit : a.toNat + 4 * ws.length ≤ memSize.toNat) {i : ℕ}
    (hi : i < ws.length) : replay cells (wordLog a ws) (Board.cell (txAddr a i)) = ws[i] := by
  induction ws generalizing a cells i with
  | nil => cases hi
  | cons w ws ih =>
    rw [List.length_cons] at hfit hi
    have hnext : (a + 4).toNat = a.toNat + 4 := by
      rw [memSize_toNat, halfSize_eq] at hfit
      rw [BitVec.toNat_add]
      show (a.toNat + 4) % 2 ^ 32 = _
      omega
    rw [wordLog, replay_cons]
    cases i with
    | zero =>
      -- the words behind the first go to other cells
      have hrest (j : ℕ) (hj : j < ws.length) :
          Board.cell (txAddr a 0) ≠ Board.cell (txAddr (a + 4) j) := by
        rw [← txAddr_four]
        exact cell_txAddr_ne_of_mem ha (Nat.succ_pos j) (by omega)
      rw [replay_wordLog_of_ne hrest, txAddr_zero]
      exact store_of_eq cells (a, w)
    | succ i =>
      rw [txAddr_four, ih (by omega) (by omega) (by omega), List.getElem_cons_succ]

end

end HbcMac

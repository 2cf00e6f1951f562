import HbcMac.Lib.LastWriter
import HbcMac.MemTheorems

/-!
# What `mem_test` finds

The memory may send two word addresses to one cell. The write pass leaves in each cell the
keystream word of its last writer, and the read pass, with the keystream started again, counts
the words that differ from it.
-/

namespace HbcMac

open LastWriter

/-- `errors > 0xff ? 0xff : errors`. -/
theorem saturate_toNat {n : ℕ} (hn : n < 2 ^ 32) :
    (if BitVec.ofNat 32 n > 0xff then 0xff else (BitVec.ofNat 32 n).setWidth 8 : Byte).toNat
      = min 255 n := by
  have hval : (BitVec.ofNat 32 n).toNat = n := by
    rw [BitVec.toNat_ofNat, Nat.mod_eq_of_lt hn]
  have hgt : BitVec.ofNat 32 n > 0xff ↔ 255 < n := by
    rw [gt_iff_lt, BitVec.lt_def, hval]
    rfl
  by_cases h : 255 < n
  · rw [if_pos (hgt.mpr h), Nat.min_eq_left (Nat.le_of_lt h)]
    rfl
  · rw [if_neg (mt hgt.mp h), BitVec.toNat_setWidth, hval]
    omega

section
variable [Board]

/-- The memory after `mem_test` has written `n` words. -/
def testPattern (m : Word → Word) (n : ℕ) : Word → Word :=
  written wordCell (Board.keystream false) m n

/-- The number of words below `n` whose keystream word is not that of the last of these words
in the same cell. -/
def aliasFaults (n : ℕ) : ℕ := misreadings wordCell (Board.keystream false) n

/-! ## The write pass -/

/-- `k` words of the write pass are done. -/
structure WritePass (m : Word → Word) (k : ℕ) (s : State) : Prop where
  cells : s.mem.cells = testPattern m k
  wrP : s.mem.wrP = wordAddr k
  flags : s.mem.flags = 0
  scram : s.scram = ⟨false, k⟩

/-- The next word of the keystream goes to the next address. -/
theorem WritePass.step {m : Word → Word} {k : ℕ} {s : State} (h : WritePass m k s) :
    WritePass m (k + 1) (memWrite (scramblerRead s).1 (scramblerRead s).2) := by
  have hplain : s.mem.writeWraps = false := by
    rw [Mem.writeWraps, h.flags]
    rfl
  have hword : (scramblerRead s).1 = Board.keystream false k := by
    rw [scramblerRead, h.scram]
  constructor
  · show (s.mem.write (scramblerRead s).1).cells = _
    rw [Mem.write_cells, hword, h.wrP, h.cells, testPattern, testPattern, written_succ]
    funext c
    rw [Function.update_apply]
    rfl
  · show (s.mem.write (scramblerRead s).1).wrP = _
    rw [Mem.write_wrP, hplain, h.wrP]
    exact advance_wordAddr nofun
  · exact h.flags
  · show (⟨s.scram.seed, s.scram.pos + 1⟩ : Scrambler) = _
    rw [h.scram]

/-- The pass over a run of words. -/
theorem WritePass.run {m : Word → Word} {k : ℕ} {s : State} (h : WritePass m k s) (n : ℕ) :
    WritePass m (k + n) (memTestWrite n s) := by
  induction n generalizing k s with
  | zero => exact h
  | succ n ih =>
    have hnext := ih h.step
    rw [Nat.add_assoc, Nat.add_comm 1 n] at hnext
    exact hnext

/-! ## The read pass -/

/-- `k` words of the read pass are done. -/
structure ReadPass (cells : Word → Word) (k : ℕ) (s : State) : Prop where
  cells : s.mem.cells = cells
  rdP : s.mem.rdP = wordAddr k
  flags : s.mem.flags = 0
  scram : s.scram = ⟨false, k⟩

section
variable {cells : Word → Word} {k : ℕ} {s : State}

/-- The next word is read, and the next of the keystream. -/
theorem ReadPass.step (h : ReadPass cells k s) :
    ReadPass cells (k + 1) (scramblerRead (memRead s).2).2 := by
  have hplain : s.mem.readWraps = false := by
    rw [Mem.readWraps, h.flags]
    rfl
  constructor
  · exact h.cells
  · show advance s.mem.readWraps s.mem.rdP = _
    rw [hplain, h.rdP]
    exact advance_wordAddr nofun
  · exact h.flags
  · show (⟨s.scram.seed, s.scram.pos + 1⟩ : Scrambler) = _
    rw [h.scram]

/-- What is read is what the cell holds. -/
theorem ReadPass.word (h : ReadPass cells k s) : (memRead s).1 = cells (wordCell k) := by
  rw [memRead, Mem.get, h.cells, h.rdP]
  rfl

/-- It is compared with the keystream from the start. -/
theorem ReadPass.key (h : ReadPass cells k s) :
    (scramblerRead (memRead s).2).1 = Board.keystream false k := by
  show Board.keystream s.scram.seed s.scram.pos = _
  rw [h.scram]

/-- The read pass counts the words that differ from the keystream. -/
theorem ReadPass.count (h : ReadPass cells k s) (n : ℕ) (errors : Word) :
    (memTestRead n errors s).1 = errors + BitVec.ofNat 32 ((List.range' k n).countP fun i =>
      cells (wordCell i) ≠ Board.keystream false i) := by
  induction n generalizing k s errors with
  | zero => exact (BitVec.add_zero errors).symm
  | succ n ih =>
    rw [memTestRead, h.word, h.key, ih h.step, List.range'_succ, List.countP_cons]
    by_cases hk : cells (wordCell k) = Board.keystream false k
    · simp [hk]
    · simp only [ne_eq, hk, not_false_eq_true, if_true, decide_true]
      rw [BitVec.ofNat_add, BitVec.add_assoc]
      congr 1
      exact BitVec.add_comm ..

end

/-! ## The whole test -/

/-- What the read pass of `mem_test` is called on. -/
def testWritten (bytes : Word) (s : State) : State :=
  scramblerReseed 0 (memSetWrP 0 (memSetRdP 0 (memTestWrite (bytes.toNat / 4)
    (scramblerReseed 0 (memSetWrP 0 (memSetFlags 0 s))))))

/-- Behind the write pass the read pass can begin. -/
theorem testWritten_readPass (bytes : Word) (s : State) :
    ReadPass (testPattern s.mem.cells (bytes.toNat / 4)) 0 (testWritten bytes s) := by
  have hstart : WritePass s.mem.cells 0 (scramblerReseed 0 (memSetWrP 0 (memSetFlags 0 s))) :=
    ⟨rfl, rfl, rfl, rfl⟩
  have hpass := hstart.run (bytes.toNat / 4)
  rw [Nat.zero_add] at hpass
  exact ⟨hpass.cells, rfl, hpass.flags, rfl⟩

/-- Its errors are the words whose cell was written again. -/
theorem memTest_errors (bytes : Word) (s : State) :
    (memTestRead (bytes.toNat / 4) 0 (testWritten bytes s)).1
      = BitVec.ofNat 32 (aliasFaults (bytes.toNat / 4)) := by
  rw [(testWritten_readPass bytes s).count, ← List.range_eq_range', aliasFaults,
    ← countP_written wordCell (Board.keystream false) s.mem.cells]
  exact BitVec.zero_add _

/-- **The memory test.** It returns the number of faults, up to 255, finds none in a memory
without aliasing, and restores the flags. -/
theorem memTest_reports (bytes : Word) (s : State) :
    (memTest bytes s).1.toNat = min 255 (aliasFaults (bytes.toNat / 4))
      ∧ (Set.InjOn wordCell {i | i < bytes.toNat / 4} → (memTest bytes s).1 = 0)
      ∧ (memTest bytes s).2.mem.flags = s.mem.flags := by
  have hbound := misreadings_le wordCell (Board.keystream false) (bytes.toNat / 4)
  have hbytes := bytes.isLt
  have hcount : (memTest bytes s).1.toNat = min 255 (aliasFaults (bytes.toNat / 4)) := by
    have hlt : aliasFaults (bytes.toNat / 4) < 2 ^ 32 := by
      rw [aliasFaults]
      omega
    rw [← saturate_toNat hlt, ← memTest_errors bytes s]
    rfl
  refine ⟨hcount, ?_, rfl⟩
  intro hinj
  rw [aliasFaults, misreadings_of_injOn wordCell _ hinj] at hcount
  exact BitVec.eq_of_toNat_eq hcount

end

end HbcMac

import HbcMac.Lib.Ring
import HbcMac.State

/-!
# Memory words, the write log and ring addresses

* `replay` is the memory a write log produces; every write of the model is one entry.
* `ringAddr k` is the address in the receive half of a cursor that has advanced `k` bytes;
  the hardware increment and the software increment of the sources both advance it by `4`.
-/

namespace HbcMac

/-! ## Replaying a write log -/

section
variable [Board]

/-- One logged write, applied to the cells. -/
def store (cells : Word → Word) (w : Word × Word) : Word → Word :=
  fun c => if c = Board.cell w.1 then w.2 else cells c

/-- The cells after the logged writes. -/
def replay (cells : Word → Word) (log : List (Word × Word)) : Word → Word := log.foldl store cells

@[simp] theorem replay_nil (cells : Word → Word) : replay cells [] = cells := rfl

@[simp] theorem replay_cons (cells : Word → Word) (w : Word × Word) (log : List (Word × Word)) :
    replay cells (w :: log) = replay (store cells w) log := rfl

theorem replay_append (cells : Word → Word) (log log' : List (Word × Word)) :
    replay cells (log ++ log') = replay (replay cells log) log' := List.foldl_append ..

theorem store_of_eq (cells : Word → Word) (w : Word × Word) :
    store cells w (Board.cell w.1) = w.2 := if_pos rfl

theorem store_of_ne {cells : Word → Word} {w : Word × Word} {c : Word} (h : c ≠ Board.cell w.1) :
    store cells w c = cells c := if_neg h

/-- A cell no logged write selects keeps its word. -/
theorem replay_of_ne {cells : Word → Word} {log : List (Word × Word)} {c : Word}
    (h : ∀ w ∈ log, c ≠ Board.cell w.1) : replay cells log c = cells c := by
  induction log generalizing cells with
  | nil => rfl
  | cons w log ih =>
    rw [replay_cons, ih fun w' hw' => h w' (List.mem_cons_of_mem w hw'),
      store_of_ne (h w List.mem_cons_self)]

/-- `ws.foldl` of `mem_write`. -/
def Mem.writes (ws : List Word) (m : Mem) : Mem := ws.foldl (fun m w => m.write w) m

@[simp] theorem Mem.writes_nil (m : Mem) : m.writes [] = m := rfl

@[simp] theorem Mem.writes_cons (m : Mem) (w : Word) (ws : List Word) :
    m.writes (w :: ws) = (m.write w).writes ws := rfl

@[simp] theorem Mem.write_cells (m : Mem) (w : Word) :
    (m.write w).cells = store m.cells (m.wrP, w) := rfl

@[simp] theorem Mem.write_flags (m : Mem) (w : Word) : (m.write w).flags = m.flags := rfl

@[simp] theorem Mem.write_rdP (m : Mem) (w : Word) : (m.write w).rdP = m.rdP := rfl

@[simp] theorem Mem.write_log (m : Mem) (w : Word) :
    (m.write w).log = m.log ++ [(m.wrP, w)] := rfl

@[simp] theorem Mem.write_wrP (m : Mem) (w : Word) :
    (m.write w).wrP = advance m.writeWraps m.wrP := rfl

end

/-! ## Ring addresses -/

/-- The address in the receive half of a cursor that has advanced `k` bytes. -/
def ringAddr (k : ℕ) : Word := BitVec.ofNat 32 (Ring.slot halfSize halfSize k)

@[simp] theorem halfSize_eq : halfSize = 16777216 := rfl

theorem ringAddr_toNat (k : ℕ) : (ringAddr k).toNat = Ring.slot halfSize halfSize k := by
  have := @Ring.slot_lt halfSize halfSize (by decide) k
  rw [ringAddr, BitVec.toNat_ofNat, Nat.mod_eq_of_lt]
  simp only [halfSize_eq] at this ⊢
  omega

/-- The ring begins behind the transmit half. -/
theorem ringAddr_ge (k : ℕ) : memRxBuf.toNat ≤ (ringAddr k).toNat := by
  rw [ringAddr_toNat]
  exact Ring.base_le_slot k

/-- It ends with the memory. -/
theorem ringAddr_lt (k : ℕ) : (ringAddr k).toNat < memSize.toNat := by
  rw [ringAddr_toNat]
  exact Ring.slot_lt (by decide) k

/-- Its places are word addresses. -/
theorem ringAddr_aligned {k : ℕ} (hk : 4 ∣ k) : 4 ∣ (ringAddr k).toNat := by
  rw [ringAddr_toNat, Ring.slot, halfSize_eq]
  omega

/-- Every word address of the receive half is the address of a cursor on its first lap. -/
theorem exists_ringAddr {a : Word} (hlo : memRxBuf.toNat ≤ a.toNat) (hhi : a.toNat < memSize.toNat)
    (ha : 4 ∣ a.toNat) : ∃ k, 4 ∣ k ∧ k < halfSize ∧ a = ringAddr k := by
  simp only [memRxBuf_toNat, memSize_toNat, halfSize_eq] at hlo hhi
  refine ⟨a.toNat - halfSize, ?_, ?_, BitVec.eq_of_toNat_eq ?_⟩
  · rw [halfSize_eq]; omega
  · rw [halfSize_eq]; omega
  · rw [ringAddr_toNat, Ring.slot_of_lt (by rw [halfSize_eq]; omega), halfSize_eq]
    omega

/-- Counting from an address of the ring instead of its base makes no difference. -/
theorem ringAddr_toNat_add (k i : ℕ) : ringAddr ((ringAddr k).toNat + i) = ringAddr (k + i) := by
  apply BitVec.eq_of_toNat_eq
  rw [ringAddr_toNat, ringAddr_toNat, ringAddr_toNat]
  simp only [Ring.slot, halfSize_eq]
  omega

/-- The hardware increment advances the cursor by one word. -/
theorem advance_ringAddr {k : ℕ} (hk : 4 ∣ k) : advance true (ringAddr k) = ringAddr (k + 4) := by
  apply BitVec.eq_of_toNat_eq
  rw [advance, if_pos rfl, ringAddr_toNat, ringAddr_toNat, BitVec.toNat_ofNat]
  simp only [Ring.slot, halfSize_eq]
  omega

/-- Cursors less than a lap apart stand for different addresses. -/
theorem ringAddr_ne {k k' : ℕ} (hlt : k < k') (hlap : k' < k + halfSize) :
    ringAddr k ≠ ringAddr k' := by
  intro h
  have h' := congrArg BitVec.toNat h
  rw [ringAddr_toNat, ringAddr_toNat] at h'
  exact Ring.slot_ne hlt hlap h'

/-- On its first lap the cursor is at a plain offset from the base. -/
theorem ringAddr_of_lt {k : ℕ} (hk : k < halfSize) :
    ringAddr k = memRxBuf + BitVec.ofNat 32 k := by
  apply BitVec.eq_of_toNat_eq
  rw [ringAddr_toNat, Ring.slot_of_lt hk, BitVec.toNat_add, BitVec.toNat_ofNat, memRxBuf_toNat]
  simp only [halfSize_eq] at hk ⊢
  omega

section
variable [Dram]

/-- Within a lap two places have two cells. -/
theorem cell_ringAddr_ne {k k' : ℕ} (hk : 4 ∣ k) (hk' : 4 ∣ k') (hlt : k < k')
    (hlap : k' < k + halfSize) : Board.cell (ringAddr k) ≠ Board.cell (ringAddr k') :=
  fun h => ringAddr_ne hlt hlap (Dram.cell_inj _ _ (ringAddr_lt k) (ringAddr_lt k')
    (ringAddr_aligned hk) (ringAddr_aligned hk') h)

end

/-! ## Successive writes in the ring -/

/-- The log of the words `ws` written from cursor `k` on. -/
def ringLog : ℕ → List Word → List (Word × Word)
  | _, [] => []
  | k, w :: ws => (ringAddr k, w) :: ringLog (k + 4) ws

/-- Words behind words. -/
theorem ringLog_append (k : ℕ) (ws ws' : List Word) :
    ringLog k (ws ++ ws') = ringLog k ws ++ ringLog (k + 4 * ws.length) ws' := by
  induction ws generalizing k with
  | nil => rfl
  | cons w ws ih =>
    rw [List.cons_append, ringLog, ih, ringLog, List.length_cons, List.cons_append]
    congr 3
    omega

/-- The writes go to successive places. -/
theorem mem_ringLog {k : ℕ} {ws : List Word} {e : Word × Word} (h : e ∈ ringLog k ws) :
    ∃ i, i < ws.length ∧ e.1 = ringAddr (k + 4 * i) := by
  induction ws generalizing k with
  | nil => cases h
  | cons w ws ih =>
    rcases List.mem_cons.mp h with rfl | h
    · exact ⟨0, Nat.succ_pos _, rfl⟩
    · obtain ⟨i, hi, he⟩ := ih h
      refine ⟨i + 1, Nat.succ_lt_succ hi, ?_⟩
      rw [he]
      congr 1
      omega

section
variable [Board]

/-- Writing `ws` with the write pointer at cursor `k` and the wrap flag set. -/
theorem Mem.writes_ring {m : Mem} {k : ℕ} (hk : 4 ∣ k) (hm : m.writeWraps = true)
    (hp : m.wrP = ringAddr k) (ws : List Word) :
    m.writes ws = { m with
      cells := replay m.cells (ringLog k ws)
      wrP := ringAddr (k + 4 * ws.length)
      log := m.log ++ ringLog k ws } := by
  induction ws generalizing m k with
  | nil => simp [ringLog, ← hp]
  | cons w ws ih =>
    have hp' : (m.write w).wrP = ringAddr (k + 4) := by
      rw [write_wrP, hm, hp, advance_ringAddr hk]
    rw [writes_cons, ih (m := m.write w) (Nat.dvd_add hk (Nat.dvd_refl 4)) hm hp', write_cells,
      write_log, hp]
    simp only [ringLog, replay_cons, List.length_cons, List.append_assoc, List.cons_append,
      List.nil_append, Mem.write]
    congr 2
    omega

end

section
variable [Dram]

/-- A word outside the range written keeps its value. -/
theorem replay_ringLog_of_disjoint {cells : Word → Word} {k j : ℕ} {ws : List Word} (hk : 4 ∣ k)
    (hj : 4 ∣ j) (h : j < k ∧ k + 4 * ws.length ≤ j + halfSize ∨
      k + 4 * ws.length ≤ j ∧ j < k + halfSize) :
    replay cells (ringLog k ws) (Board.cell (ringAddr j)) = cells (Board.cell (ringAddr j)) := by
  refine replay_of_ne fun e he => ?_
  obtain ⟨i, hi, he⟩ := mem_ringLog he
  rw [he]
  have hki : 4 ∣ k + 4 * i := Nat.dvd_add hk (Nat.dvd_mul_right 4 i)
  rcases h with ⟨h1, h2⟩ | ⟨h1, h2⟩
  · exact cell_ringAddr_ne hj hki (by omega) (by omega)
  · exact (cell_ringAddr_ne hki hj (by omega) (by omega)).symm

/-- The words written, as long as they fit in the ring. -/
theorem replay_ringLog_getElem {cells : Word → Word} {k : ℕ} {ws : List Word} (hk : 4 ∣ k)
    (hfit : 4 * ws.length ≤ halfSize) {i : ℕ} (hi : i < ws.length) :
    replay cells (ringLog k ws) (Board.cell (ringAddr (k + 4 * i))) = ws[i] := by
  induction ws generalizing k i cells with
  | nil => cases hi
  | cons w ws ih =>
    rw [List.length_cons] at hfit hi
    rw [ringLog, replay_cons]
    cases i with
    | zero =>
      have hne : replay (store cells (ringAddr k, w)) (ringLog (k + 4) ws)
          (Board.cell (ringAddr k)) = store cells (ringAddr k, w) (Board.cell (ringAddr k)) :=
        replay_ringLog_of_disjoint (Nat.dvd_add hk (Nat.dvd_refl 4)) hk
          (Or.inl ⟨by omega, by omega⟩)
      simp only [Nat.mul_zero, Nat.add_zero, hne, List.getElem_cons_zero]
      exact store_of_eq cells (ringAddr k, w)
    | succ i =>
      have hcur : k + 4 * (i + 1) = k + 4 + 4 * i := by omega
      rw [hcur, ih (Nat.dvd_add hk (Nat.dvd_refl 4)) (by omega) (by omega),
        List.getElem_cons_succ]

end

/-! ## Bytes of the memory -/

section
variable [Board]

/-- Byte `i` counted from the word at address `a`. -/
def Mem.byte (m : Mem) (a : Word) (i : ℕ) : Byte :=
  LittleEndian.byteAt (m.get (a + BitVec.ofNat 32 (4 * (i / 4)))) (i % 4)

/-- The bytes are those of the cells. -/
theorem Mem.byte_congr {m m' : Mem} (h : m'.cells = m.cells) : m'.byte = m.byte := by
  funext a i
  rw [byte, byte, get, get, h]

/-- Byte `i` of the words read one after the other from address `a` on. -/
def Mem.stream (m : Mem) (a : Word) (i : ℕ) : Byte :=
  LittleEndian.byteAt (m.get ((advance m.readWraps)^[i / 4] a)) (i % 4)

end

/-- Without the flag a pointer goes straight on. -/
theorem advance_iterate_plain (k : ℕ) (a : Word) :
    (advance false)^[k] a = a + BitVec.ofNat 32 (4 * k) := by
  induction k generalizing a with
  | zero => exact (BitVec.add_zero a).symm
  | succ k ih =>
    have hsum : (4 : Word) + BitVec.ofNat 32 (4 * k) = BitVec.ofNat 32 (4 * (k + 1)) := by
      rw [Nat.mul_succ, Nat.add_comm, BitVec.ofNat_add]
      rfl
    rw [Function.iterate_succ_apply, ih, ← hsum, ← BitVec.add_assoc]
    rfl

/-- With the wrap flag set the pointer stays in its half. -/
theorem advance_iterate_wrap (k : ℕ) (a : Word) : ((advance true)^[k] a).toNat
    = a.toNat / halfSize * halfSize + (a.toNat + 4 * k) % halfSize := by
  have hlt := a.isLt
  induction k generalizing a with
  | zero =>
    show a.toNat = _
    rw [halfSize_eq]
    omega
  | succ k ih =>
    have hnext : (advance true a).toNat
        = a.toNat / halfSize * halfSize + (a.toNat + 4) % halfSize := by
      rw [advance, if_pos rfl, BitVec.toNat_ofNat, halfSize_eq]
      omega
    rw [Function.iterate_succ_apply, ih _ (BitVec.isLt _), hnext]
    simp only [halfSize_eq]
    omega

/-- The address of word `i` of the memory. -/
def wordAddr (i : ℕ) : Word := BitVec.ofNat 32 (4 * i)

theorem wordAddr_toNat {i : ℕ} (hi : 4 * i < 2 ^ 32) : (wordAddr i).toNat = 4 * i := by
  rw [wordAddr, BitVec.toNat_ofNat, Nat.mod_eq_of_lt hi]

/-- The pointer moves to the next word, unless it is made to stay in its half. -/
theorem advance_wordAddr {wrap : Bool} {i : ℕ} (h : wrap = true → 4 * (i + 1) < halfSize) :
    advance wrap (wordAddr i) = wordAddr (i + 1) := by
  cases wrap with
  | false =>
    have hnext : (4 : Word) = BitVec.ofNat 32 4 := rfl
    rw [advance, if_neg Bool.false_ne_true, wordAddr, wordAddr, hnext, ← BitVec.ofNat_add]
    rfl
  | true =>
    have hlt := h rfl
    rw [halfSize_eq] at hlt
    rw [advance, if_pos rfl, wordAddr_toNat (by omega), wordAddr, halfSize_eq]
    congr 1
    omega

section
variable [Board]

/-- The cell of word `i`. -/
def wordCell (i : ℕ) : Word := Board.cell (wordAddr i)

/-- As long as the pointer does not wrap, the words read are those at successive addresses. -/
theorem Mem.stream_eq_byte {m : Mem} {a : Word} {i : ℕ} (ha : 4 ∣ a.toNat)
    (h : m.readWraps = true → a.toNat % halfSize + i < halfSize) : m.stream a i = m.byte a i := by
  have hlt := a.isLt
  have hptr : (advance m.readWraps)^[i / 4] a = a + BitVec.ofNat 32 (4 * (i / 4)) := by
    cases hwrap : m.readWraps with
    | false => exact advance_iterate_plain _ a
    | true =>
      have hfit := h hwrap
      apply BitVec.eq_of_toNat_eq
      rw [advance_iterate_wrap, BitVec.toNat_add, BitVec.toNat_ofNat]
      simp only [halfSize_eq] at hfit ⊢
      omega
  rw [stream, byte, hptr]

end

section
variable [Dram]

/-- The words of the memory have cells of their own. -/
theorem wordCell_inj {i j : ℕ} (hi : 4 * i < memSize.toNat) (hj : 4 * j < memSize.toNat)
    (h : wordCell i = wordCell j) : i = j := by
  have hbound : memSize.toNat = 33554432 := rfl
  rw [hbound] at hi hj
  have hi' := wordAddr_toNat (i := i) (by omega)
  have hj' := wordAddr_toNat (i := j) (by omega)
  have haddr : wordAddr i = wordAddr j := by
    apply Dram.cell_inj _ _ _ _ _ _ h
    · rwa [hi', hbound]
    · rwa [hj', hbound]
    · exact ⟨i, hi'⟩
    · exact ⟨j, hj'⟩
  have hnat := congrArg BitVec.toNat haddr
  omega

end

end HbcMac

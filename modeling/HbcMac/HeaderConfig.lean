import HbcMac.CrcErrors
import HbcMac.HeaderWord
import HbcMac.Lib.Run
import HbcMac.MainVars
import HbcMac.RxRing

/-!
# Headers the host configures

The commands store their arguments in `header_info` as they come. `build_tx_plcp_header` shifts
the fields to their places without masking them, so what does not fit its field runs into the
fields above it, while the receiver reads every field through its mask.
-/

namespace HbcMac

/-! ## The header word by its bits -/

section
variable {h : PlcpHeader} (hpilot : h.pilotInfo = pilotNone) (hburst : h.burstMode = 0)
include hpilot hburst

/-- The fields overlap where they do not fit. -/
theorem getLsbD_headerBits {i : ℕ} (hi : i < 32) : (headerBits h).getLsbD i
    = (h.dataRate.getLsbD i || (0x30 : Word).getLsbD i
      || (!decide (i < 11) && h.scramblerSeed.getLsbD (i - 11))
      || (!decide (i < 16) && h.pdsuLength.getLsbD (i - 16))) := by
  have hfixed : pilotNone <<< hdrPiShift ||| (0 : Word) <<< hdrBmShift = 0x30 := by decide
  have hbits : headerBits h = h.dataRate ||| 0x30 ||| h.scramblerSeed <<< hdrSsShift
      ||| h.pdsuLength.setWidth 32 <<< hdrLenShift := by
    rw [headerBits, hpilot, hburst, ← hfixed, ← BitVec.or_assoc]
    simp [hdrDrShift]
  rw [hbits, hdrSsShift, hdrLenShift]
  have h32 : i - 16 < 32 := by omega
  simp only [BitVec.getLsbD_or, BitVec.getLsbD_shiftLeft, BitVec.getLsbD_setWidth, hi, h32,
    decide_true, Bool.true_and]

/-- The checksum is above them. -/
theorem getLsbD_headerWord {i : ℕ} (hi : i < 32) : (headerWord h).getLsbD i
    = (h.dataRate.getLsbD i || (0x30 : Word).getLsbD i
      || (!decide (i < 11) && h.scramblerSeed.getLsbD (i - 11))
      || (!decide (i < 16) && h.pdsuLength.getLsbD (i - 16))
      || (!decide (i < 24) && (crc8 (headerBits h)).getLsbD (i - 24))) := by
  have h32 : i - 24 < 32 := by omega
  rw [headerWord, BitVec.getLsbD_or, getLsbD_headerBits hpilot hburst hi, hdrCrcShift,
    BitVec.getLsbD_shiftLeft, BitVec.getLsbD_setWidth, decide_eq_true hi, decide_eq_true h32,
    Bool.true_and, Bool.true_and]

end

/-- `HDR_READ` by its bits. -/
theorem getLsbD_hdrRead (hdr mask : Word) (shift i : ℕ) :
    (hdrRead hdr mask shift).getLsbD i
      = (hdr.getLsbD (shift + i) && mask.getLsbD (shift + i)) := by
  rw [hdrRead, BitVec.getLsbD_ushiftRight, BitVec.getLsbD_and]

/-- A field of `len` bits, given the bits its mask selects. -/
theorem hdrRead_eq {hdr mask v : Word} {shift : ℕ} (len : ℕ)
    (hmask : ∀ i < 32, mask.getLsbD (shift + i) = decide (i < len))
    (hlow : ∀ i < len, hdr.getLsbD (shift + i) = v.getLsbD i)
    (hhigh : ∀ i < 32, len ≤ i → v.getLsbD i = false) : hdrRead hdr mask shift = v := by
  apply BitVec.eq_of_getLsbD_eq
  intro i hi
  rw [getLsbD_hdrRead, hmask i hi]
  by_cases hlen : i < len
  · rw [decide_eq_true hlen, Bool.and_true, hlow i hlen]
  · rw [decide_eq_false hlen, Bool.and_false, hhigh i hi (Nat.le_of_not_lt hlen)]

/-! ## What the receiver reads -/

section
variable {h : PlcpHeader} (hpilot : h.pilotInfo = pilotNone) (hburst : h.burstMode = 0)
include hpilot hburst

/-- The rate comes back when it fits its three bits. -/
theorem hdrRead_dataRate_iff :
    hdrRead (headerWord h) hdrDrMask hdrDrShift = h.dataRate ↔ h.dataRate.toNat < 8 := by
  have hread : hdrRead (headerWord h) hdrDrMask hdrDrShift = h.dataRate &&& 7 := by
    have hseven : ∀ i < 32, (7 : Word).getLsbD i = decide (i < 3) := by decide
    have hfixed : ∀ i < 3, (0x30 : Word).getLsbD i = false := by decide
    apply hdrRead_eq 3 (by decide)
    · intro i hi
      rw [hdrDrShift, Nat.zero_add, getLsbD_headerWord hpilot hburst (by omega), hfixed i hi,
        BitVec.getLsbD_and, hseven i (by omega), decide_eq_true hi, decide_eq_true (by omega : i < 11),
        decide_eq_true (by omega : i < 16), decide_eq_true (by omega : i < 24)]
      simp
    · intro i hi hle
      rw [BitVec.getLsbD_and, hseven i hi, decide_eq_false (by omega), Bool.and_false]
  rw [hread, ← BitVec.toNat_inj, BitVec.toNat_and]
  have hmod : h.dataRate.toNat &&& 7 = h.dataRate.toNat % 8 := Nat.and_two_pow_sub_one_eq_mod _ 3
  show h.dataRate.toNat &&& 7 = _ ↔ _
  rw [hmod]
  omega

variable (hrate : h.dataRate.toNat < 8)
include hrate

/-- Behind a rate in range bit `i` of the header word is that of the other fields. -/
theorem getLsbD_headerWord_rest {i : ℕ} (h3 : 3 ≤ i) (hi : i < 32) : (headerWord h).getLsbD i
    = ((0x30 : Word).getLsbD i
      || (!decide (i < 11) && h.scramblerSeed.getLsbD (i - 11))
      || (!decide (i < 16) && h.pdsuLength.getLsbD (i - 16))
      || (!decide (i < 24) && (crc8 (headerBits h)).getLsbD (i - 24))) := by
  have hzero : h.dataRate.getLsbD i = false :=
    Nat.testBit_lt_two_pow (Nat.lt_of_lt_of_le hrate (Nat.pow_le_pow_right (n := 2) (by decide) h3))
  rw [getLsbD_headerWord hpilot hburst hi, hzero, Bool.false_or]

/-- A rate that fits leaves the pilots as they are. -/
theorem hdrRead_pilotInfo : hdrRead (headerWord h) hdrPiMask hdrPiShift = h.pilotInfo := by
  have hfixed : ∀ i < 3, (0x30 : Word).getLsbD (3 + i) = pilotNone.getLsbD i := by decide
  rw [hpilot]
  apply hdrRead_eq 3 (by decide) _ (by decide)
  intro i hi
  rw [hdrPiShift, getLsbD_headerWord_rest hpilot hburst hrate (by omega) (by omega), hfixed i hi,
    decide_eq_true (by omega : 3 + i < 11), decide_eq_true (by omega : 3 + i < 16),
    decide_eq_true (by omega : 3 + i < 24)]
  simp

/-- The burst mode, too. -/
theorem hdrRead_burstMode : hdrRead (headerWord h) hdrBmMask hdrBmShift = h.burstMode := by
  have hfixed : ∀ i < 1, (0x30 : Word).getLsbD (8 + i) = (0 : Word).getLsbD i := by decide
  rw [hburst]
  apply hdrRead_eq 1 (by decide) _ (by decide)
  intro i hi
  rw [hdrBmShift, getLsbD_headerWord_rest hpilot hburst hrate (by omega) (by omega), hfixed i hi,
    decide_eq_true (by omega : 8 + i < 11), decide_eq_true (by omega : 8 + i < 16),
    decide_eq_true (by omega : 8 + i < 24)]
  simp

/-- Only the lowest bit of the seed reaches its field. -/
theorem hdrRead_scramblerSeed :
    hdrRead (headerWord h) hdrSsMask hdrSsShift = h.scramblerSeed &&& 1 := by
  have hone : ∀ i < 32, (1 : Word).getLsbD i = decide (i < 1) := by decide
  have hfixed : (0x30 : Word).getLsbD 11 = false := by decide
  apply hdrRead_eq 1 (by decide)
  · intro i hi
    have hi0 : i = 0 := by omega
    rw [hdrSsShift, hi0, getLsbD_headerWord_rest hpilot hburst hrate (by omega) (by omega), hfixed,
      BitVec.getLsbD_and]
    simp
  · intro i hi hle
    rw [BitVec.getLsbD_and, hone i hi, decide_eq_false (by omega), Bool.and_false]

/-- The seed runs into the length from its sixth bit on. -/
theorem hdrRead_pdsuLength : (hdrRead (headerWord h) hdrLenMask hdrLenShift).setWidth 8
    = h.pdsuLength ||| (h.scramblerSeed >>> 5).setWidth 8 := by
  have hmask : ∀ i < 8, hdrLenMask.getLsbD (16 + i) = true := by decide
  have hfixed : ∀ i < 8, (0x30 : Word).getLsbD (16 + i) = false := by decide
  apply BitVec.eq_of_getLsbD_eq
  intro i hi
  have hseed : 16 + i - 11 = 5 + i := by omega
  rw [BitVec.getLsbD_setWidth, getLsbD_hdrRead, hdrLenShift, hmask i hi,
    getLsbD_headerWord_rest hpilot hburst hrate (by omega) (by omega), hfixed i hi, hseed,
    Nat.add_sub_cancel_left, decide_eq_false (by omega : ¬ 16 + i < 11),
    decide_eq_false (by omega : ¬ 16 + i < 16), decide_eq_true (by omega : 16 + i < 24),
    BitVec.getLsbD_or, BitVec.getLsbD_setWidth, BitVec.getLsbD_ushiftRight]
  simp [hi, Bool.or_comm]

/-- And into the checksum from its fourteenth. -/
theorem headerWord_top_eq : (headerWord h >>> 24).setWidth 8
    = crc8 (headerBits h) ||| (h.scramblerSeed >>> 13).setWidth 8 := by
  have hfixed : ∀ i < 8, (0x30 : Word).getLsbD (24 + i) = false := by decide
  apply BitVec.eq_of_getLsbD_eq
  intro i hi
  have hseed : 24 + i - 11 = 13 + i := by omega
  have hlen : h.pdsuLength.getLsbD (24 + i - 16) = false := BitVec.getLsbD_of_ge _ _ (by omega)
  rw [BitVec.getLsbD_setWidth, BitVec.getLsbD_ushiftRight,
    getLsbD_headerWord_rest hpilot hburst hrate (by omega) (by omega), hfixed i hi, hseed, hlen,
    Nat.add_sub_cancel_left, decide_eq_false (by omega : ¬ 24 + i < 11),
    decide_eq_false (by omega : ¬ 24 + i < 24), BitVec.getLsbD_or, BitVec.getLsbD_setWidth,
    BitVec.getLsbD_ushiftRight]
  simp [hi, Bool.or_comm]

end

/-! ## A faithful header -/

/-- The receiver of the header word `w` accepts it and finds the fields of `h`; its scrambler
is seeded like the sender's. -/
structure Decodes (w : Word) (h : PlcpHeader) : Prop where
  crc : headerCrc w = 0
  pdsuLength : (hdrRead w hdrLenMask hdrLenShift).setWidth 8 = h.pdsuLength
  dataRate : hdrRead w hdrDrMask hdrDrShift = h.dataRate
  pilotInfo : hdrRead w hdrPiMask hdrPiShift = h.pilotInfo
  burstMode : hdrRead w hdrBmMask hdrBmShift = h.burstMode
  seed : ∀ t t' : State, (scramblerReseed (hdrRead w hdrSsMask hdrSsShift) t).scram
    = (scramblerReseed h.scramblerSeed t').scram

/-- The rate fits its field, the seed is zero or odd, and what the seed leaves in the length
and the checksum is set there anyway. -/
structure FieldsFit (h : PlcpHeader) : Prop where
  dataRate : h.dataRate.toNat < 8
  scramblerSeed : h.scramblerSeed = 0 ∨ h.scramblerSeed.toNat % 2 = 1
  pdsuLength : h.pdsuLength ||| (h.scramblerSeed >>> 5).setWidth 8 = h.pdsuLength
  crc : crc8 (headerBits h) ||| (h.scramblerSeed >>> 13).setWidth 8 = crc8 (headerBits h)

/-- A rate of three bits and a seed of one bit fit, whatever the length. -/
theorem fieldsFit_of_range {h : PlcpHeader} (hrate : h.dataRate.toNat < 8)
    (hseed : h.scramblerSeed = 0 ∨ h.scramblerSeed = 1) : FieldsFit h := by
  have hlen : h.scramblerSeed >>> 5 = 0 := by
    obtain hs | hs := hseed <;> rw [hs] <;> rfl
  have hcrc : h.scramblerSeed >>> 13 = 0 := by
    obtain hs | hs := hseed <;> rw [hs] <;> rfl
  refine ⟨hrate, hseed.imp_right fun hs => ?_, ?_, ?_⟩
  · rw [hs]
    rfl
  · rw [hlen]
    exact BitVec.or_zero
  · rw [hcrc]
    exact BitVec.or_zero

/-- The check over four bytes asks for the checksum of the first three in the fourth. -/
theorem headerCrc_eq_zero_iff (h : PlcpHeader) :
    headerCrc (headerWord h) = 0
      ↔ (headerWord h >>> 24).setWidth 8 = crc8 (headerBits h) := by
  have hcrc : headerCrc (headerWord h)
      = crc8Update (crc8 (headerBits h)) ((headerWord h >>> 24).setWidth 8) := by
    unfold headerCrc
    dsimp only
    rw [headerWord_low h (by decide), headerWord_low h (by decide), headerWord_low h (by decide)]
    rfl
  rw [hcrc]
  exact crc8Update_eq_zero_iff

/-- The seed of the receiver is the lowest bit, that of the sender any other value too. -/
theorem seed_iff (seed : Word) :
    (∀ t t' : State, (scramblerReseed (seed &&& 1) t).scram = (scramblerReseed seed t').scram) ↔
      seed = 0 ∨ seed.toNat % 2 = 1 := by
  have hmod : (seed &&& 1).toNat = seed.toNat % 2 := Nat.and_two_pow_sub_one_eq_mod _ 1
  have hlow : seed &&& 1 = 0 ↔ seed.toNat % 2 = 0 := by
    rw [← BitVec.toNat_inj, hmod]
    rfl
  -- the sender tests the whole word, the receiver its lowest bit
  constructor
  · intro hall
    have hsame : (seed &&& 1 != 0) = (seed != 0) :=
      congrArg Scrambler.seed (hall bootState bootState)
    by_cases hs : seed = 0
    · exact .inl hs
    · right
      by_contra hodd
      have heven : seed &&& 1 = 0 := hlow.mpr (by omega)
      rw [heven, bne_iff_ne.mpr hs] at hsame
      cases hsame
  · intro hs t t'
    have hsame : (seed &&& 1 != 0) = (seed != 0) := by
      rcases hs with hs | hs
      · rw [hs]
        rfl
      · have hodd : seed &&& 1 ≠ 0 := by
          rw [ne_eq, hlow]
          omega
        have hne : seed ≠ 0 := by
          intro h0
          rw [h0] at hs
          cases hs
        rw [bne_iff_ne.mpr hodd, bne_iff_ne.mpr hne]
    show Scrambler.mk (seed &&& 1 != 0) 0 = Scrambler.mk (seed != 0) 0
    rw [hsame]

/-- **A header decodes** exactly when its fields fit. -/
theorem decodes_iff {h : PlcpHeader} (hpilot : h.pilotInfo = pilotNone) (hburst : h.burstMode = 0) :
    Decodes (headerWord h) h ↔ FieldsFit h := by
  constructor
  · intro hd
    have hrate := (hdrRead_dataRate_iff hpilot hburst).mp hd.dataRate
    have hlen := hd.pdsuLength
    have hcrc := (headerCrc_eq_zero_iff h).mp hd.crc
    have hseed := hd.seed
    rw [hdrRead_pdsuLength hpilot hburst hrate] at hlen
    rw [headerWord_top_eq hpilot hburst hrate] at hcrc
    rw [hdrRead_scramblerSeed hpilot hburst hrate, seed_iff] at hseed
    exact ⟨hrate, hseed, hlen, hcrc⟩
  · intro hf
    have hrate := hf.dataRate
    refine ⟨?_, ?_, ?_, ?_, ?_, ?_⟩
    · rw [headerCrc_eq_zero_iff, headerWord_top_eq hpilot hburst hrate, hf.crc]
    · rw [hdrRead_pdsuLength hpilot hburst hrate, hf.pdsuLength]
    · rw [hdrRead_dataRate_iff hpilot hburst]
      exact hrate
    · exact hdrRead_pilotInfo hpilot hburst hrate
    · exact hdrRead_burstMode hpilot hburst hrate
    · rw [hdrRead_scramblerSeed hpilot hburst hrate, seed_iff]
      exact hf.scramblerSeed

/-! ## Configured by the host -/

section
variable [Board] [HostProtocol]

/-- The state after the three commands that configure a frame. -/
def configure (rate seed length : Word) (s : State) : State :=
  ctrlSwitch .hbcTxTrigger length
    (ctrlSwitch .hbcTxScramblerSeed seed (ctrlSwitch .hbcTxSpreadFactor rate s))

omit [Board] [HostProtocol] in
/-- No command sets the pilots or the burst mode. -/
theorem fixed_varsOfCommand (r : Option (Cmd × Word)) (m : MainVars) :
    (varsOfCommand r m).headerInfo.pilotInfo = m.headerInfo.pilotInfo
      ∧ (varsOfCommand r m).headerInfo.burstMode = m.headerInfo.burstMode := by
  cases r with
  | none => exact ⟨rfl, rfl⟩
  | some r =>
    obtain ⟨cmd, arg⟩ := r
    cases cmd <;> exact ⟨rfl, rfl⟩

omit [HostProtocol] in
/-- Nor does the main loop. -/
theorem fixed_varsOfMain (pc : Pc) (s : State) :
    (varsOfMain pc s).headerInfo.pilotInfo = s.main.headerInfo.pilotInfo
      ∧ (varsOfMain pc s).headerInfo.burstMode = s.main.headerInfo.burstMode := by
  cases pc with
  | trigFlood =>
    unfold varsOfMain
    dsimp only
    split <;> exact ⟨rfl, rfl⟩
  | _ => exact ⟨rfl, rfl⟩

/-- The pilots and the burst mode are those of the start-up, which no step changes. -/
def FixedFields (y : Sys) : Prop :=
  y.fw.dev.main.headerInfo.pilotInfo = pilotNone ∧ y.fw.dev.main.headerInfo.burstMode = 0

/-- A step keeps them. -/
theorem fixedFields_step {y : Sys} (h : FixedFields y) (e : Event) : FixedFields (y.step e) := by
  obtain ⟨toggle, hvars⟩ := y.step_main_vars e
  have hkept : (y.varsAfter e).headerInfo.pilotInfo = y.fw.dev.main.headerInfo.pilotInfo
      ∧ (y.varsAfter e).headerInfo.burstMode = y.fw.dev.main.headerInfo.burstMode := by
    cases e with
    | main => exact fixed_varsOfMain y.pc y.fw.dev
    | ctrl b => exact fixed_varsOfCommand (y.command (.ctrl b)) y.fw.dev.main
    | data | rxData arr | rxReady arr => exact ⟨rfl, rfl⟩
  unfold FixedFields
  rw [hvars]
  exact ⟨hkept.1.trans h.1, hkept.2.trans h.2⟩

/-- And so does a run. -/
theorem fixedFields_run {y : Sys} (h : FixedFields y) (evs : List Event) :
    FixedFields (Run.run Sys.step y evs) :=
  Run.run_of_invariant (I := FixedFields) (fun _ e hy => fixedFields_step hy e) h evs

omit [Board] [HostProtocol] in
/-- They are so at the start. -/
theorem fixedFields_boot {s₀ : State} (hboot : Boot s₀) : FixedFields (Sys.boot s₀) := by
  show s₀.main.headerInfo.pilotInfo = pilotNone ∧ s₀.main.headerInfo.burstMode = 0
  rw [hboot.main]
  exact ⟨rfl, rfl⟩

omit [Board] [HostProtocol] in
/-- The modulator gets the header word. -/
theorem modulated_buildTxPlcpHeader (h : PlcpHeader) (t : State) :
    modulated (buildTxPlcpHeader h t).2.out = modulated t.out ++ [headerWord h] := by
  obtain ⟨new, f, heq, hmod, -⟩ := sends_buildTxPlcpHeader h t
  rw [heq]
  dsimp only
  rw [modulated_append, hmod]

/-- **Headers the host can configure.** Whatever has happened since the start-up, the header word
sent after the three commands decodes exactly when the fields fit. -/
theorem configured_header_decodes_iff {s₀ : State} (hboot : Boot s₀) (evs : List Event)
    (rate seed length : Word) :
    let t := configure rate seed length (Run.run Sys.step (Sys.boot s₀) evs).fw.dev
    let h := t.main.headerInfo
    (h.dataRate = rate ∧ h.scramblerSeed = seed ∧ h.pdsuLength = length.setWidth 8)
      ∧ ∃ w, modulated (buildTxPlcpHeader h t).2.out = modulated t.out ++ [w]
        ∧ (Decodes w h ↔ FieldsFit h) := by
  intro t h
  have hfixed := fixedFields_run (fixedFields_boot hboot) evs
  exact ⟨⟨rfl, rfl, rfl⟩, headerWord h, modulated_buildTxPlcpHeader h t,
    decodes_iff hfixed.1 hfixed.2⟩

/-- In particular a rate below 8 and the seed 0 or 1 always decode, with any length. -/
theorem configured_header_in_range {s₀ : State} (hboot : Boot s₀) (evs : List Event)
    {rate seed : Word} (hrate : rate.toNat < 8) (hseed : seed = 0 ∨ seed = 1) (length : Word) :
    let t := configure rate seed length (Run.run Sys.step (Sys.boot s₀) evs).fw.dev
    let h := t.main.headerInfo
    ∃ w, modulated (buildTxPlcpHeader h t).2.out = modulated t.out ++ [w] ∧ Decodes w h := by
  intro t h
  have hfixed := fixedFields_run (fixedFields_boot hboot) evs
  have hpilot : h.pilotInfo = pilotNone := hfixed.1
  have hburst : h.burstMode = 0 := hfixed.2
  exact ⟨headerWord h, modulated_buildTxPlcpHeader h t,
    (decodes_iff hpilot hburst).mpr (fieldsFit_of_range hrate hseed)⟩

end

/-- The highest rate, the other seed and 300 bytes, which are 44. -/
theorem configured_header_decodes_fits :
    letI := plainDram
    letI := plainProtocol
    let t := configure 3 1 300 (Run.run Sys.step (Sys.boot bootState) [.main, .data]).fw.dev
    let h := t.main.headerInfo
    (h.dataRate = 3 ∧ h.scramblerSeed = 1 ∧ h.pdsuLength = (300 : Word).setWidth 8)
      ∧ ∃ w, modulated (buildTxPlcpHeader h t).2.out = modulated t.out ++ [w]
        ∧ (Decodes w h ↔ FieldsFit h) :=
  let := plainDram
  let := plainProtocol
  configured_header_decodes_iff bootState_boot [.main, .data] 3 1 300

/-- With the scrambler seed 2 the sender scrambles with the other keystream than the receiver. -/
theorem configured_header_wrong_seed :
    letI := plainDram
    letI := plainProtocol
    let h := (configure 0 2 0 (Sys.boot bootState).fw.dev).main.headerInfo
    ¬ Decodes (headerWord h) h := by
  let := plainDram
  let := plainProtocol
  intro h hd
  have hseed := congrArg Scrambler.seed (hd.seed bootState bootState)
  have hne : (hdrRead (headerWord h) hdrSsMask hdrSsShift != 0) ≠ (h.scramblerSeed != 0) := by
    decide +kernel
  exact hne hseed

end HbcMac

import HbcMac.Lib.Setting
import HbcMac.Outputs

/-!
# The rate indicator

In front of its header a frame has four preambles and a field in which the delimiter stands between
two fillers. The register writes say how long each word is, and the filler in front of the delimiter
is by 16 longer for each step of the data rate, the one behind it by as much shorter. So the place of
the delimiter tells the rate at which the words that follow are modulated, and the header comes at
the same place for every rate. Whatever the FIFO does in between makes no difference.
-/

namespace HbcMac

/-! ## Register writes under a setting -/

/-- A write to `FIFO_MASK`. -/
def Out.size : Out → Option Byte
  | .fifoSize size => some size
  | _ => none

/-- A write to the FIFO itself. -/
def Out.fifoWord : Out → Option Word
  | .fifo w => some w
  | _ => none

/-- A write to `MODULATOR_SF`. -/
def Out.spreading : Out → Option Byte
  | .modulateSf rate => some rate
  | _ => none

/-- A write to the modulator. -/
def Out.modulatorWord : Out → Option Word
  | .modulate w => some w
  | _ => none

/-- The words for the FIFO, each with the size in force. -/
def sizedWords : Byte → List Out → List (Byte × Word) := Setting.uses Out.size Out.fifoWord

/-- The words for the modulator, each with the rate in force. -/
def modulations : Byte → List Out → List (Byte × Word) :=
  Setting.uses Out.spreading Out.modulatorWord

/-- The sizes of the words, added up. -/
def totalSize (ws : List (Byte × Word)) : ℕ := (ws.map fun w => w.1.toNat).sum

/-- The words of `put_bitmap_32`, all of the size 8. -/
def bitmapWords (code : Word) : List (Byte × Word) :=
  (List.range 32).map fun i => (8, if code &&& (1 <<< (31 - i)) ≠ 0 then bitMap32_1 else bitMap32_0)

/-- The four preambles. -/
def preambleWords : List (Byte × Word) :=
  (List.replicate 4 (bitmapWords preamble1 ++ bitmapWords preamble2)).flatten

/-- The delimiter. -/
def sfdWords : List (Byte × Word) := bitmapWords sfd1 ++ bitmapWords sfd2

/-- The filler in front of the delimiter. -/
def fillerBefore (rate : ℕ) : List (Byte × Word) :=
  match rate with
  | 0 => []
  | 1 => [(16, bitMap32_0)]
  | 2 => [(32, bitMap32_0)]
  | _ => [(32, bitMap32_0), (16, bitMap32_0)]

/-- The filler behind it. -/
def fillerBehind (rate : ℕ) : List (Byte × Word) :=
  match rate with
  | 0 => [(32, bitMap32_0), (32, bitMap32_0), (32, bitMap32_0)]
  | 1 => [(32, bitMap32_0), (32, bitMap32_0), (16, bitMap32_0)]
  | 2 => [(32, bitMap32_0), (32, bitMap32_0)]
  | _ => [(32, bitMap32_0), (16, bitMap32_0)]

/-- What goes to the FIFO in front of a header with the rate `rate`. -/
def leadWords (rate : ℕ) : List (Byte × Word) :=
  preambleWords ++ fillerBefore rate ++ sfdWords ++ fillerBehind rate

/-! ## The writes of a frame -/

/-- Only the register writes count. -/
theorem sizedWords_fifoWrites (size : Byte) (tr : List Out) :
    sizedWords size (fifoWrites tr) = sizedWords size tr := by
  refine Setting.uses_filter (fun o ho => ?_) size tr
  cases o with
  | fifo w => cases ho
  | fifoSize b => cases ho
  | _ => exact ⟨rfl, rfl⟩

/-- For the modulator, too. -/
theorem modulations_fifoWrites (rate : Byte) (tr : List Out) :
    modulations rate (fifoWrites tr) = modulations rate tr := by
  refine Setting.uses_filter (fun o ho => ?_) rate tr
  cases o with
  | modulate w => cases ho
  | modulateSf b => cases ho
  | _ => exact ⟨rfl, rfl⟩

/-- `fifo_set_rate` puts its rate in force for the words behind it. -/
theorem modulations_rateWrites (rate : Byte) (r : Word) (ws : List Word) :
    modulations rate (rateWrites r ++ ws.map .modulate) = ws.map (Prod.mk (r.setWidth 8)) := by
  have hrate : modulations rate (rateWrites r ++ ws.map .modulate)
      = modulations (r.setWidth 8) (ws.map .modulate) := by
    unfold rateWrites rateSize
    split_ifs <;> rfl
  exact hrate.trans (Setting.uses_map (f := Out.modulate) (fun _ => rfl) (fun _ => rfl) _ _)

/-- A header of which only the rate matters to what is sent in front of it. -/
def riHeader (rate : Word) : PlcpHeader where
  dataRate := rate
  pilotInfo := pilotNone
  burstMode := 0
  useRi := 1
  scramblerSeed := 0
  pdsuLength := 0
  crc8 := 0

/-- The writes in front of a header depend on its rate only. -/
theorem leadWrites_riHeader {h : PlcpHeader} (hri : h.useRi ≠ 0) :
    leadWrites h = leadWrites (riHeader h.dataRate) := by
  have hone : (riHeader h.dataRate).useRi ≠ 0 := by
    show (1 : Word) ≠ 0
    decide
  unfold leadWrites sfdWrites
  rw [if_neg hri, if_neg hone, if_pos hri, if_pos hone]
  rfl

/-- The words for the FIFO, whatever the size in force before. -/
theorem sizedWords_lead {rate : Word} (hrate : rate.toNat < 4) (size : Byte) :
    sizedWords size (leadWrites (riHeader rate)) = leadWords rate.toNat := by
  have hfirst : sizedWords size (leadWrites (riHeader rate))
      = sizedWords 0 (leadWrites (riHeader rate)) := rfl
  have hcases : rate = 0 ∨ rate = 1 ∨ rate = 2 ∨ rate = 3 := by
    have hnat : rate.toNat = 0 ∨ rate.toNat = 1 ∨ rate.toNat = 2 ∨ rate.toNat = 3 := by omega
    obtain h | h | h | h := hnat
    · exact .inl (BitVec.eq_of_toNat_eq h)
    · exact .inr (.inl (BitVec.eq_of_toNat_eq h))
    · exact .inr (.inr (.inl (BitVec.eq_of_toNat_eq h)))
    · exact .inr (.inr (.inr (BitVec.eq_of_toNat_eq h)))
  rw [hfirst]
  obtain rfl | rfl | rfl | rfl := hcases <;> decide +kernel

/-- The fillers make up for each other. -/
theorem totalSize_fillers {rate : ℕ} (hrate : rate < 4) :
    totalSize (fillerBefore rate) = 16 * rate ∧ totalSize (fillerBehind rate) = 96 - 16 * rate ∧
      ∀ w ∈ fillerBefore rate ++ fillerBehind rate, w.2 = bitMap32_0 := by
  have hall : ∀ r < 4, totalSize (fillerBefore r) = 16 * r ∧
      totalSize (fillerBehind r) = 96 - 16 * r ∧
      ((fillerBefore r ++ fillerBehind r).all fun w => w.2 = bitMap32_0) = true := by
    decide +kernel
  obtain ⟨hbefore, hbehind, hzero⟩ := hall rate hrate
  exact ⟨hbefore, hbehind, fun w hw => of_decide_eq_true (List.all_eq_true.mp hzero w hw)⟩

/-! ## Frames -/

/-- The register writes of a frame tell its rate, and it is in force for all of its words: the words
for the FIFO are the preambles and the delimiter between two fillers, of which the first has the size
16 for each step of the rate and both together 96. -/
structure Frame.OnLines (f : Frame) (tr : List Out) : Prop where
  lead : ∀ size, ∃ before behind,
    sizedWords size tr = preambleWords ++ before ++ sfdWords ++ behind ∧
    totalSize before = 16 * f.headerInfo.dataRate.toNat ∧
    totalSize behind = 96 - 16 * f.headerInfo.dataRate.toNat ∧
    ∀ w ∈ before ++ behind, w.2 = bitMap32_0
  words : ∀ rate, modulations rate tr = f.words.map (Prod.mk (f.headerInfo.dataRate.setWidth 8))

/-- The delimiter is used, and the rate is one of the four. -/
def PlcpHeader.TellsRate (h : PlcpHeader) : Prop := h.useRi = 1 ∧ h.dataRate.toNat < 4

/-- Behind the lead no word goes to the FIFO. -/
theorem fifoWord_behind (rate : Word) (ws ws' : List Word) :
    ∀ o ∈ ws.map Out.modulate ++ (rateWrites rate ++ ws'.map Out.modulate), o.fifoWord = none := by
  intro o ho
  simp only [List.mem_append, List.mem_map] at ho
  rcases ho with ⟨w, -, rfl⟩ | ho | ⟨w, -, rfl⟩
  · rfl
  · revert o
    unfold rateWrites rateSize
    split_ifs <;> simp [Out.fifoWord]
  · rfl

/-- The lead ends with the rate of the header, and nothing is modulated in it. -/
theorem leadWrites_ends {h : PlcpHeader} (hri : h.useRi ≠ 0) :
    ∃ tr, leadWrites h = tr ++ rateWrites h.dataRate ∧ ∀ o ∈ tr, o.modulatorWord = none := by
  refine ⟨_, by rw [leadWrites, if_pos hri], fun o ho => ?_⟩
  have hnone := modulated_leadWrites h
  rw [leadWrites, modulated_append] at hnone
  have hfirst := List.filterMap_eq_nil_iff.mp (List.append_eq_nil_iff.mp hnone).1 o ho
  cases o with
  | modulate w => cases hfirst
  | _ => rfl

/-- The words for the FIFO are those of the lead. -/
theorem sizedWords_writes {f : Frame} (hri : f.headerInfo.useRi ≠ 0)
    (hrate : f.headerInfo.dataRate.toNat < 4) (size : Byte) :
    sizedWords size f.writes = leadWords f.headerInfo.dataRate.toNat := by
  rw [Frame.writes, List.append_assoc, List.append_assoc, sizedWords, Setting.uses_append,
    Setting.uses_of_none (fifoWord_behind _ _ _), List.append_nil, leadWrites_riHeader hri]
  exact sizedWords_lead hrate size

/-- The words for the modulator are header and payload, for each of which the rate is set again. -/
theorem modulations_writes {f : Frame} (hri : f.headerInfo.useRi ≠ 0) (rate : Byte) :
    modulations rate f.writes = f.words.map (Prod.mk (f.headerInfo.dataRate.setWidth 8)) := by
  obtain ⟨tr, hlead, hquiet⟩ := leadWrites_ends hri
  have hsplit (rate : Byte) : modulations rate (rateWrites f.headerInfo.dataRate
        ++ (f.words.take 1).map Out.modulate)
      ++ modulations (Setting.after Out.spreading rate (rateWrites f.headerInfo.dataRate
          ++ (f.words.take 1).map Out.modulate))
        (rateWrites f.headerInfo.dataRate ++ (f.words.drop 1).map Out.modulate)
      = f.words.map (Prod.mk (f.headerInfo.dataRate.setWidth 8)) := by
    rw [modulations_rateWrites, modulations_rateWrites, ← List.map_append, List.take_append_drop]
  rw [Frame.writes, hlead, List.append_assoc, List.append_assoc, List.append_assoc, modulations,
    Setting.uses_append, Setting.uses_of_none hquiet, List.nil_append, ← List.append_assoc,
    Setting.uses_append]
  exact hsplit _

/-- The writes of a frame, with whatever the FIFO does in between. -/
theorem onLines_writes {f : Frame} (h : f.headerInfo.TellsRate) {tr : List Out}
    (htr : fifoWrites tr = f.writes) : f.OnLines tr := by
  obtain ⟨hri, hrate⟩ := h
  have hne : f.headerInfo.useRi ≠ 0 := by
    rw [hri]
    decide
  obtain ⟨hbefore, hbehind, hzero⟩ := totalSize_fillers hrate
  refine ⟨fun size => ⟨_, _, ?_, hbefore, hbehind, hzero⟩, fun rate => ?_⟩
  · rw [← sizedWords_fifoWrites, htr]
    exact sizedWords_writes hne hrate size
  · rw [← modulations_fifoWrites, htr]
    exact modulations_writes hne rate

section
variable [Board] [HostProtocol]

/-- The command does not set a rate that does not exist. -/
def KeepsRate (r : Option (Cmd × Word)) : Prop :=
  ∀ c ∈ r, c.1 = .hbcTxSpreadFactor → c.2.toNat < 4

instance : DecidablePred KeepsRate := fun r => inferInstanceAs (Decidable (∀ c ∈ r, _))

/-- The header of the main loop and those of the frames sent tell their rate. -/
structure RatesTold (y : Sys) : Prop where
  header : y.fw.dev.main.headerInfo.TellsRate
  frames : ∀ f ∈ y.frames, f.headerInfo.TellsRate

omit [HostProtocol] in
/-- The main loop leaves rate and delimiter alone. -/
theorem tellsRate_varsOfMain (pc : Pc) {s : State} (h : s.main.headerInfo.TellsRate) :
    (varsOfMain pc s).headerInfo.TellsRate := by
  cases pc with
  | trigFlood =>
    unfold varsOfMain
    dsimp only
    split
    · exact h
    · exact h
  | _ => exact h

/-- A step that keeps to the rates. -/
theorem RatesTold.step {y : Sys} {e : Event} (h : RatesTold y) (hC : KeepsRate (y.command e)) :
    RatesTold (y.step e) := by
  obtain ⟨toggle, hvars⟩ := y.step_main_vars e
  have hheader : (y.step e).fw.dev.main.headerInfo.TellsRate := by
    rw [hvars]
    cases e with
    | main => exact tellsRate_varsOfMain y.pc h.header
    | ctrl b =>
      show (varsOfCommand (y.command (.ctrl b)) y.fw.dev.main).headerInfo.TellsRate
      cases hcmd : y.command (.ctrl b) with
      | none => exact h.header
      | some c =>
        obtain ⟨cmd, arg⟩ := c
        have hrate := hC (cmd, arg) hcmd
        cases cmd with
        | hbcTxSpreadFactor => exact ⟨h.header.1, hrate rfl⟩
        | _ => exact h.header
    | data | rxData | rxReady => exact h.header
  refine ⟨hheader, ?_⟩
  by_cases he : e = .main
  · subst he
    by_cases hpc : y.pc = .psocHang
    · rw [Sys.step_hang hpc]
      exact h.frames
    · rw [Sys.step_main hpc] at hheader ⊢
      intro f hf
      obtain hf | hf := List.mem_append.mp hf
      · exact h.frames f hf
      · have hnew : f.headerInfo = (mainStep y.pc y.fw.dev).2.main.headerInfo := by
          unfold framesOf at hf
          split at hf
          · rw [List.mem_singleton.mp hf]
          · rw [List.mem_singleton.mp hf]
          · exact absurd hf List.not_mem_nil
        rw [hnew]
        exact hheader
  · rw [Sys.step_frames he]
    exact h.frames

/-- **The rate indicator.** In every run from start-up in which the host sets no rate that does
not exist, the lines of the transmitter show the frames sent one behind the other, and in each of
them the place of the delimiter tells the rate at which all words of the frame are modulated. -/
theorem rate_indicated {s : State} (hboot : Boot s) {evs : List Event}
    (hrate : Run.Steps Sys.step (fun y e => KeepsRate (y.command e)) (Sys.boot s) evs) :
    ∃ tr trs, (Run.run Sys.step (Sys.boot s) evs).fw.dev.out = s.out ++ tr ∧
      tr.filter Out.isTx = trs.flatten ∧
      List.Forall₂ Frame.OnLines (Run.run Sys.step (Sys.boot s) evs).frames trs := by
  have htold : RatesTold (Run.run Sys.step (Sys.boot s) evs) := by
    refine Run.run_of_step (fun _ _ h hC => h.step hC) ⟨?_, fun f hf => ?_⟩ hrate
    · show s.main.headerInfo.TellsRate
      rw [hboot.main]
      exact ⟨rfl, by decide⟩
    · exact absurd hf List.not_mem_nil
  obtain ⟨new, trs, hframes, hfilter, hall⟩ := Sys.tx_run (Sys.boot s) evs
  have hnew : (Run.run Sys.step (Sys.boot s) evs).frames = new := hframes
  rw [hnew]
  refine ⟨(Sys.boot s).trace evs, trs, Sys.out_run (Sys.boot s) evs, hfilter, ?_⟩
  have htells : ∀ f ∈ new, f.headerInfo.TellsRate := hnew ▸ htold.frames
  clear hfilter hframes hnew
  induction hall with
  | nil => exact .nil
  | cons hfirst hrest ih =>
    obtain ⟨hf, hfs⟩ := List.forall_mem_cons.mp htells
    exact .cons (onLines_writes hf hfirst.1) (ih hfs)

end

/-- `CMD_HBC_TX_SPREAD_FACTOR` with the fastest rate, and a frame. -/
def fastFrame [HostProtocol] : List Event :=
  sending .hbcTxSpreadFactor 3 ++ sending .hbcTxTrigger 4 ++ List.replicate 8 .main

/-- The rate 3 exists. -/
theorem fastFrame_keepsRate :
    letI := plainDram
    letI := plainProtocol
    Run.Steps Sys.step (fun y e => KeepsRate (y.command e)) (Sys.boot bootState) fastFrame := by
  decide +kernel

/-- The fastest frame tells its rate. -/
theorem rate_indicated_fast :
    letI := plainDram
    letI := plainProtocol
    ∃ tr trs, (Run.run Sys.step (Sys.boot bootState) fastFrame).fw.dev.out = bootState.out ++ tr ∧
      tr.filter Out.isTx = trs.flatten ∧
      List.Forall₂ Frame.OnLines (Run.run Sys.step (Sys.boot bootState) fastFrame).frames trs :=
  @rate_indicated plainDram.toBoard plainProtocol bootState bootState_boot _ fastFrame_keepsRate

end HbcMac

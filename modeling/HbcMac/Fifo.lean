import HbcMac.State

/-!
# `fifo.c`

A blocking write polls `IRQ_TX_FIFO_ALMOST_FULL` until it is clear; how often it finds the
flag set is the head of `TxFifo.fullPolls`. The receive flag `IRQ_RX_DATA_READY` is live:
words may arrive before each read of it.
-/

namespace HbcMac

/-! ## Transmit side -/

/-- `fifo_trigger`: the first call of a frame starts the transmitter, the others do nothing. -/
def fifoTrigger (s : State) : State :=
  if s.txFifo.triggered then s
  else { s.pulse .hbcTxTrigger with txFifo.triggered := true }

/-- `fifo_flush`. -/
def fifoFlush (s : State) : State := s.pulse .hbcTxFlush

/-- `fifo_reset`: the next frame is triggered again. -/
def fifoReset (s : State) : State := { s with txFifo.triggered := false }

/-- `while (!IRQ_FLAG_SET(IRQ_TX_FIFO_EMPTY)) {}`: the wait touches nothing. -/
def fifoWait (s : State) : State := s

/-- `fifo_write_size`, a write to `FIFO_MASK`. -/
def fifoWriteSize (size : Byte) (s : State) : State := s.emit (.fifoSize size)

/-- `while (IRQ_FLAG_SET(IRQ_TX_FIFO_ALMOST_FULL)) fifo_trigger();` when the flag is found
set `n` times. -/
def fifoBlock : ℕ → State → State
  | 0, s => s.emit (.txFull false)
  | n + 1, s => fifoBlock n (fifoTrigger (s.emit (.txFull true)))

/-- The wait loop for the next entry of the schedule. -/
def fifoWaitSpace (s : State) : State :=
  fifoBlock (s.txFifo.fullPolls.headD 0)
    { s with txFifo.fullPolls := s.txFifo.fullPolls.tail }

/-- `fifo_write`, behind the wait for space. -/
def fifoWrite (data : Word) (s : State) : State := (fifoWaitSpace s).emit (.fifo data)

/-- `fifo_modulate`, behind the same wait. -/
def fifoModulate (data : Word) (s : State) : State := (fifoWaitSpace s).emit (.modulate data)

/-- `fifo_modulate_sf`, a write to `MODULATOR_SF`. -/
def fifoModulateSf (data : Byte) (s : State) : State := s.emit (.modulateSf data)

/-! ## Receive side -/

/-- `IRQ_FLAG_SET(IRQ_RX_DATA_READY)`, after the words due before this read have arrived. -/
def rxDataReady (s : State) : Bool × State :=
  match s.rxFifo.arrivals with
  | [] => (!s.rxFifo.words.isEmpty, s)
  | ws :: later =>
    (!(s.rxFifo.words ++ ws).isEmpty,
      { s with rxFifo := { words := s.rxFifo.words ++ ws, arrivals := later } })

/-- `fifo_read`. The handlers call it only when the flag has been found set. -/
def fifoRead (s : State) : Word × State :=
  (s.rxFifo.words.headD 0, { s with rxFifo.words := s.rxFifo.words.tail })

/-- Words in the FIFO or still to arrive. -/
def rxFifoTotal (s : State) : ℕ := s.rxFifo.words.length + s.rxFifo.arrivals.flatten.length

end HbcMac

import HbcMac.Lib.Run
import HbcMac.Lib.LittleEndian
import HbcMac.Lib.Ring
import HbcMac.Lib.Stream
import HbcMac.Lib.ShiftRegister
import HbcMac.Lib.PolyDivision
import HbcMac.Lib.LastWriter
import HbcMac.Lib.OneShot
import HbcMac.Lib.LinkedList
import HbcMac.Hardware
import HbcMac.State
import HbcMac.Fifo
import HbcMac.Crc8
import HbcMac.BuildTx
import HbcMac.ExtractRx
import HbcMac.Flash
import HbcMac.HostProtocol
import HbcMac.Spi
import HbcMac.Commands
import HbcMac.System
import HbcMac.MemTheorems
import HbcMac.RxWriter
import HbcMac.TxTrace
import HbcMac.TxFrame
import HbcMac.TxDuringRx
import HbcMac.RxRing
import HbcMac.WriterStep
import HbcMac.RxAppend
import HbcMac.RxQueue
import HbcMac.HeaderWord
import HbcMac.Loopback
import HbcMac.RxReader
import HbcMac.DataPort
import HbcMac.CommandSteps
import HbcMac.Forwarder
import HbcMac.Deframe
import HbcMac.MainLoop
import HbcMac.Dumps
import HbcMac.PortSteps
import HbcMac.Messages
import HbcMac.SingleByte
import HbcMac.TxAccount
import HbcMac.TxLoader
import HbcMac.TxBuffer
import HbcMac.Loads
import HbcMac.TxStride
import HbcMac.LoadLeak
import HbcMac.RxForward
import HbcMac.CrcErrors
import HbcMac.CheckPacket
import HbcMac.PacketStart
import HbcMac.MainVars
import HbcMac.HeaderConfig
import HbcMac.RxSwitch
import HbcMac.Triggers
import HbcMac.EmptyQueue
import HbcMac.DumpIsolation
import HbcMac.QueueWalk
import HbcMac.DataDrain
import HbcMac.DumpPlace
import HbcMac.Exchange
import HbcMac.LoadDump
import HbcMac.FlashWrite
import HbcMac.FlashErase
import HbcMac.FlashContents
import HbcMac.FlashVerify
import HbcMac.FlashPlacement
import HbcMac.TxTrigger
import HbcMac.PsocImage
import HbcMac.MemTest
import HbcMac.CrcDivision
import HbcMac.Interrupts
import HbcMac.Lib.Progress
import HbcMac.Lib.Simulation
import HbcMac.FrameWork
import HbcMac.FrameSeeds
import HbcMac.AutoForward
import HbcMac.Delivery
import HbcMac.Requests
import HbcMac.FlashPath
import HbcMac.FlashFrame
import HbcMac.MemOwners
import HbcMac.Lib.Trace
import HbcMac.Outputs
import HbcMac.RateIndicator
import HbcMac.Lib.Decoder
import HbcMac.HostReader
import HbcMac.RingApart
import HbcMac.PacketQueue
import HbcMac.PollingHost
import HbcMac.Lib.SplitStep
import HbcMac.SplitLoop

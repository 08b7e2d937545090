import BluespecPcie.Bluespec.Fifo
import BluespecPcie.Bluespec.Bram
import BluespecPcie.Bluespec.Machine
import BluespecPcie.Shifter
import BluespecPcie.MergeN
import BluespecPcie.PcieCtrl.Step
import BluespecPcie.PcieCtrl.ReceiveRules
import BluespecPcie.PcieCtrl.Frames
import BluespecPcie.PcieCtrl.BeatLog
import BluespecPcie.PcieCtrl.Realignment
import BluespecPcie.PcieCtrl.Framing
import BluespecPcie.Dram.Controller
import BluespecPcie.Dram.Service
import BluespecPcie.Dram.Bytes
import BluespecPcie.Dram.FlatMemory
import BluespecPcie.Host.Bdbmpcie
import BluespecPcie.Host.WriteCredits
import BluespecPcie.PcieCtrl.Bursts
import BluespecPcie.PcieCtrl.Transmit
import BluespecPcie.PcieCtrl.Multiplexing
import BluespecPcie.PcieCtrl.PageLookup
import BluespecPcie.Host.Memory
import BluespecPcie.PcieCtrl.DmaWrite
import BluespecPcie.PcieCtrl.StatusOrder
import BluespecPcie.PcieCtrl.Completions
import BluespecPcie.PcieCtrl.Answers
import BluespecPcie.PcieCtrl.ConfigSpace
import BluespecPcie.Host.Link
import BluespecPcie.Host.WriteBudget
import BluespecPcie.Host.ReadBudget
import BluespecPcie.Dram.Pairing
import BluespecPcie.Host.DRAMHostDMA
import BluespecPcie.Host.PageCopies
import BluespecPcie.Host.CopyToFPGA
import BluespecPcie.Host.CopyFromFPGA
import BluespecPcie.Host.DoubleBuffering
import BluespecPcie.Bluespec.Demux
import BluespecPcie.MergeOrder
import BluespecPcie.ScatterN
import BluespecPcie.Bluespec.Ring
import BluespecPcie.Host.ShmFifo
import BluespecPcie.MergeScatter
import BluespecPcie.Host.ShmProcesses
import BluespecPcie.Bluespec.Streams
import BluespecPcie.BurstMerge
import BluespecPcie.BurstAtomic
import BluespecPcie.Bluespec.Stores
import BluespecPcie.Dma.Tagged
import BluespecPcie.Dma.WriteHelper
import BluespecPcie.Dma.CircularQueue
import BluespecPcie.Dma.WriteBuffers
import BluespecPcie.Host.ByteStores
import BluespecPcie.Dma.CircularRing
import BluespecPcie.Dma.WideCtrl
import BluespecPcie.MergeLabels
import BluespecPcie.Dma.Splitter
import BluespecPcie.Dma.WideUser
import BluespecPcie.Dma.PacketSlots
import BluespecPcie.Dma.WideRules
import BluespecPcie.Dma.PacketRing
import BluespecPcie.Dram.SplitterLog
import BluespecPcie.MergeItems
import BluespecPcie.Dram.SplitterReads
import BluespecPcie.Dram.SplitterCounts
import BluespecPcie.Dram.SplitterOrder
import BluespecPcie.Dram.SplitterStores
import BluespecPcie.Dma.WriteTags
import BluespecPcie.PcieCtrl.Chunks
import BluespecPcie.Dma.WideChunks
import BluespecPcie.Host.CopyFrame
import BluespecPcie.Host.Mmap
import BluespecPcie.Dram.UnalignedReads
import BluespecPcie.PcieCtrl.UserOrder
import BluespecPcie.Bluespec.Lanes
import BluespecPcie.Dma.ReadReorder
import BluespecPcie.Dma.ReadLanes
import BluespecPcie.Dma.ReadHelper
import BluespecPcie.Dram.HostDMA
import BluespecPcie.Dram.HostDMARules
import BluespecPcie.Dram.HostDMAReads
import BluespecPcie.Dma.ReadHelperWords
import BluespecPcie.Dram.ReadBlocking
import BluespecPcie.Dram.ChainedReads
import BluespecPcie.Dram.PageStreams
import BluespecPcie.Dram.PageCommands
import BluespecPcie.Bluespec.Pipeline
import BluespecPcie.ShiftStreams
import BluespecPcie.Dram.ReadCredit
import BluespecPcie.Dram.WriteMasks
import BluespecPcie.Host.DriverBuffers
import BluespecPcie.PcieCtrl.FlushCredit
import BluespecPcie.Dram.HostToFpga
import BluespecPcie.Dram.FpgaToHost
import BluespecPcie.Dram.PageMoves
import BluespecPcie.PcieCtrl.BurstCounts
import BluespecPcie.PcieCtrl.DoneBits
import BluespecPcie.PcieCtrl.TagConservation
import BluespecPcie.PcieCtrl.MemoryReads
import BluespecPcie.PcieCtrl.ReadRequests
import BluespecPcie.PcieCtrl.FlushOrder
import BluespecPcie.PcieCtrl.SlotReuse
import BluespecPcie.PcieCtrl.ReadWords
import BluespecPcie.PcieCtrl.ReorderWords
import BluespecPcie.PcieCtrl.ReadData
import BluespecPcie.Bluespec.Progress
import BluespecPcie.MergeProgress
import BluespecPcie.PcieCtrl.WriteProgress
import BluespecPcie.PcieCtrl.TransmitProgress
import BluespecPcie.Host.Bluesim
import BluespecPcie.Host.BluesimQueues
import BluespecPcie.Host.BluesimRegisters

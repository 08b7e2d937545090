import BluespecPcie.Bluespec.Bram
import BluespecPcie.MergeN
import BluespecPcie.PcieCtrl.Types
import BluespecPcie.Shifter

/-! Registers, queues and memories of `mkPcieCtrl`, grouped by the section they belong to. -/

namespace BluespecPcie

open Bluespec

/-- The registers that realign straddled TLPs. -/
structure Realign where
  partBuffer : Option (BitVec 128)
  keepBuffer : BitVec 16
  partOffset : BitVec 5

/-- The realignment registers after reset. -/
def Realign.reset : Realign := { partBuffer := none, keepBuffer := 0#16, partOffset := 0#5 }

/-- Straddle realignment and the beat parser. -/
structure ReceivePath where
  tlpKeepQ : Fifo (BitVec 16) 32
  tlpQ : Fifo (BitVec 128) 32
  tlp2Q : Fifo (BitVec 128) 2
  tlp3Q : Fifo (BitVec 128) 2
  realign : Realign
  completionRecvLength : BitVec 10
  completionRecvTag : BitVec 8
  dmaReadBuffer : BitVec 32

/-- Host accesses to the configuration buffer and to the user region. -/
structure UserIO where
  ioReadQ : Fifo IOReadReq 8
  userWriteQ : Fifo IOWrite 512
  userWrite1Q : Fifo IOWrite 2
  userWrite2Q : Fifo IOWrite 2
  userReadQ0 : Fifo IOReadReq 2
  userReadQ1 : Fifo IOReadReq 512
  userReadQ2 : Fifo IOReadReq 2
  userWriteEmit : BitVec 32
  userReadEmit : BitVec 32
  debugCode : BitVec 32

/-- The pools of read and write tags. -/
structure TagPool where
  freeTagCnt : BitVec 8
  freeReadTagQ : Fifo (BitVec 8) 128
  freeReadTagFQ : Fifo (BitVec 8) 2
  freeWriteTagQ : Fifo (BitVec 8) 128

/-- The page table in the configuration buffer and its shared lookup port. -/
structure PageTable where
  configBuffer : Bram2 12 (BitVec 32)
  bufidxRequestedWriteQ : Fifo Bool 2
  dmaWriteBufAddrQ : Fifo (BitVec 32) 2
  dmaReadBufAddrQ : Fifo (BitVec 32) 2

/-- Splitting of DMA read requests into bursts. -/
structure ReadSplit where
  dmaReadReqQ : Fifo DMAReq 2
  dmaPageReadReqQ : Fifo DMAReq 8
  dmaReadStartAddr : BitVec 32
  dmaReadWords : BitVec 10

/-- The completion burst being written to the reorder buffer, in DWs: its tag, the DWs of
the tag received before it, its DWs left to write, its DWs written, and the tag's total.
-/
structure TagWordsLeft where
  tag : BitVec 8
  off : BitVec 10
  words : BitVec 10
  ioff : BitVec 10
  req : BitVec 10
deriving DecidableEq, Inhabited

/-- Bookkeeping of arriving completion bursts. The scoreboard is a module of a library that is
not part of the source; it is taken to be a FIFO of 4 tags with an exact search.
-/
structure BurstUpdate where
  readBurstQ : Fifo (BitVec 8 × BitVec 10) 2
  readBurst2Q : Fifo (BitVec 8 × BitVec 10) 2
  tagMap : Bram2 8 (BitVec 10 × BitVec 10)
  readCompletionsb : Fifo (BitVec 8) 4
  dmaReadWordQ : Fifo DMAWordTagged 128
  dmaReadWordRQ : Fifo DMAWordTagged 2
  burstUpdReqQ : Fifo (BitVec 8 × BitVec 10) 2
  readDoneTagQ : Fifo (BitVec 8 × BitVec 10) 2
  tagMapReadAQ : Fifo (BitVec 10 × BitVec 10) 2
  tagWordsLeft : TagWordsLeft

/-- Retirement of completely received tags in request order. -/
structure TagOrder where
  orderedReadDoneTagQ : Fifo (BitVec 8 × BitVec 10) 4
  dmaReadTagOrderQ : Fifo (BitVec 8) 128
  doneShifter : PipelineShifter 128 7
  orderShifter : PipelineShifter 128 7
  orderTagBypassQ1 : Fifo (BitVec 8) 8
  orderTagBypassQ2 : Fifo (BitVec 8) 2
  doneTagMap : BitVec 128
  orderTagMap : BitVec 128
  doneMap : Bram2 8 (BitVec 8 × BitVec 10)
  curOrderTag : Option (BitVec 128)
  doneReorderedTagQ : Fifo (BitVec 8) 2
  orderShiftedQ : Fifo (BitVec 128) 2

/-- The tag being flushed, its total DWs, and the DWs left to read. -/
structure ReadFlushTag where
  tag : BitVec 8
  req : BitVec 10
  curword : BitVec 10
deriving DecidableEq, Inhabited

/-- The reorder buffer and the flush of retired tags to the user. -/
structure Reorder where
  readReorder : Bram2 10 (BitVec 128)
  readFlushTag : ReadFlushTag
  dmaReadOutQ : Fifo DMAWord 64
  dmaReadOutRQ : Fifo DMAWord 2
  dmaReadOutCntUp : BitVec 8
  dmaReadOutCntDn : BitVec 8

/-- DMA write requests, data, and the generator of write TLPs. -/
structure WritePath where
  dmaSendWords : BitVec 10
  dmaWriteReqQ : Fifo DMAReq 2
  dmaWriteWordQ : Fifo DMAWord 32
  dmaWriteWordIn : BitVec 10
  dmaWriteWordOut : BitVec 10
  dmaWriteBuf : DMAWord
  dmaStartAddr : BitVec 32
  busyWriteTagQ : Fifo (BitVec 8) 128
  dmaPageWriteReqQ : Fifo DMAReq 8
  freeWriteTagStageQ : Fifo (BitVec 8) 2
  dataWordsRemain : BitVec 10

/-- The transmit side: the merge tree and the queue to the core. -/
structure Transmit where
  sendTLPQ : Fifo SendTLP 8
  sendTLPm : MergeN SendTLP
  userSendTLPQ : Fifo SendTLP 2

/-- The state of `mkPcieCtrl`, with the completer ID the PCIe core reports. -/
structure PcieCtrl where
  cfg_completer_id : BitVec 16
  rx : ReceivePath
  io : UserIO
  tags : TagPool
  pages : PageTable
  reads : ReadSplit
  bursts : BurstUpdate
  order : TagOrder
  reorder : Reorder
  writes : WritePath
  tx : Transmit

/-- What reset does not determine: the core's completer ID and the contents of the BRAMs. -/
structure PowerUp where
  cfg_completer_id : BitVec 16
  configBuffer : BitVec 12 → BitVec 32
  tagMap : BitVec 8 → BitVec 10 × BitVec 10
  doneMap : BitVec 8 → BitVec 8 × BitVec 10
  readReorder : BitVec 10 → BitVec 128
deriving Inhabited

/-- `mkPcieCtrl` after reset. -/
def mkPcieCtrl (p : PowerUp) : PcieCtrl where
  cfg_completer_id := p.cfg_completer_id
  rx :=
    { tlpKeepQ := .empty, tlpQ := .empty, tlp2Q := .empty, tlp3Q := .empty
      realign := .reset
      completionRecvLength := 0, completionRecvTag := 0, dmaReadBuffer := 0 }
  io :=
    { ioReadQ := .empty, userWriteQ := .empty, userWrite1Q := .empty, userWrite2Q := .empty
      userReadQ0 := .empty, userReadQ1 := .empty, userReadQ2 := .empty
      userWriteEmit := 0, userReadEmit := 0, debugCode := 0 }
  tags :=
    { freeTagCnt := 0, freeReadTagQ := .empty, freeReadTagFQ := .empty
      freeWriteTagQ := .empty }
  pages :=
    { configBuffer := .init p.configBuffer, bufidxRequestedWriteQ := .empty
      dmaWriteBufAddrQ := .empty, dmaReadBufAddrQ := .empty }
  reads :=
    { dmaReadReqQ := .empty, dmaPageReadReqQ := .empty
      dmaReadStartAddr := 0, dmaReadWords := 0 }
  bursts :=
    { readBurstQ := .empty, readBurst2Q := .empty, tagMap := .init p.tagMap
      readCompletionsb := .empty, dmaReadWordQ := .empty, dmaReadWordRQ := .empty
      burstUpdReqQ := .empty, readDoneTagQ := .empty, tagMapReadAQ := .empty
      tagWordsLeft := ⟨0, 0, 0, 0, 0⟩ }
  order :=
    { orderedReadDoneTagQ := .empty, dmaReadTagOrderQ := .empty
      doneShifter := .init, orderShifter := .init
      orderTagBypassQ1 := .empty, orderTagBypassQ2 := .empty
      doneTagMap := 0, orderTagMap := 0, doneMap := .init p.doneMap
      curOrderTag := none, doneReorderedTagQ := .empty, orderShiftedQ := .empty }
  reorder :=
    { readReorder := .init p.readReorder, readFlushTag := ⟨0, 0, 0⟩
      dmaReadOutQ := .empty, dmaReadOutRQ := .empty
      dmaReadOutCntUp := 0, dmaReadOutCntDn := 0 }
  writes :=
    { dmaSendWords := 0, dmaWriteReqQ := .empty, dmaWriteWordQ := .empty
      dmaWriteWordIn := 0, dmaWriteWordOut := 0, dmaWriteBuf := 0, dmaStartAddr := 0
      busyWriteTagQ := .empty, dmaPageWriteReqQ := .empty, freeWriteTagStageQ := .empty
      dataWordsRemain := 0 }
  tx := { sendTLPQ := .empty, sendTLPm := mkMergeN 8, userSendTLPQ := .empty }

end BluespecPcie

import BluespecPcie.Bluespec.Machine
import BluespecPcie.PcieCtrl.ReceiveRules
import BluespecPcie.PcieCtrl.WriteRules

/-! All rules and methods of `mkPcieCtrl` as one guarded-action machine. -/

namespace BluespecPcie

open Bluespec

/-- A rule firing, a method call by the user logic, or a beat offered by the PCIe core. -/
inductive Event where
  | recvTLP (beat : RxBeat)
  | procCompletionTLP
  | filterStatReadTLP
  | procTLP
  | relayUserReadQ0
  | relayUserReadQ1
  | completeIORead
  | procIOWrite
  | relayUserWriteQ
  | relayUserWrite2Q
  | dataReceive
  | dataReq
  | insertFreeTag
  | relayFreeReadTag
  | relayBufIdxRead
  | dmaReadReq (addr : BitVec 32) (words : BitVec 10)
  | splitDmaReadReq
  | splitDmaReadReq2
  | generateDmaReadTLP
  | relayReadBurst
  | updateReadBurst1
  | getTagMapReadA
  | updateReadBurst2
  | relayDmaReadrQ
  | writeReadBuffer
  | applyDoneMap
  | procDoneShift
  | doneShifterStage (i : Nat)
  | shiftOrder
  | forwardShiftOrderTagBypass
  | forwardShifted
  | orderShifterStage (i : Nat)
  | compareOrder
  | reqDoneTag
  | forwardDoneTag
  | flushReadTag
  | flushReadOrdered
  | relayFlushReadOrdered
  | dmaReadWord
  | dmaWriteReq (addr : BitVec 32) (words : BitVec 10)
  | dmaWriteData (data : DMAWord)
  | splitDmaWriteReq
  | relayFreeWriteTag
  | splitDmaWriteReq2
  | generateHeaderTLP
  | generateDataTLP
  | relayTLPm
  | relayTLP
  | relayUserSendTLP
  | dataSend (ioreq : IOReadReq) (data : BitVec 32)
  | sendTLPmRule (rule : MergeRule)
deriving DecidableEq

/-- One event of `mkPcieCtrl`; `none` when its guard is false. -/
def PcieCtrl.step (s : PcieCtrl) : Event → Option PcieCtrl
  | .recvTLP beat => s.recvTLP beat
  | .procCompletionTLP => s.procCompletionTLP
  | .filterStatReadTLP => s.filterStatReadTLP
  | .procTLP => s.procTLP
  | .relayUserReadQ0 => s.relayUserReadQ0
  | .relayUserReadQ1 => s.relayUserReadQ1
  | .completeIORead => s.completeIORead
  | .procIOWrite => s.procIOWrite
  | .relayUserWriteQ => s.relayUserWriteQ
  | .relayUserWrite2Q => s.relayUserWrite2Q
  | .dataReceive => s.dataReceive.map Prod.snd
  | .dataReq => s.dataReq.map Prod.snd
  | .insertFreeTag => s.insertFreeTag
  | .relayFreeReadTag => s.relayFreeReadTag
  | .relayBufIdxRead => s.relayBufIdxRead
  | .dmaReadReq addr words => s.dmaReadReq addr words
  | .splitDmaReadReq => s.splitDmaReadReq
  | .splitDmaReadReq2 => s.splitDmaReadReq2
  | .generateDmaReadTLP => s.generateDmaReadTLP
  | .relayReadBurst => s.relayReadBurst
  | .updateReadBurst1 => s.updateReadBurst1
  | .getTagMapReadA => s.getTagMapReadA
  | .updateReadBurst2 => s.updateReadBurst2
  | .relayDmaReadrQ => s.relayDmaReadrQ
  | .writeReadBuffer => s.writeReadBuffer
  | .applyDoneMap => s.applyDoneMap
  | .procDoneShift => s.procDoneShift
  | .doneShifterStage i => s.doneShifterStage i
  | .shiftOrder => s.shiftOrder
  | .forwardShiftOrderTagBypass => s.forwardShiftOrderTagBypass
  | .forwardShifted => s.forwardShifted
  | .orderShifterStage i => s.orderShifterStage i
  | .compareOrder => s.compareOrder
  | .reqDoneTag => s.reqDoneTag
  | .forwardDoneTag => s.forwardDoneTag
  | .flushReadTag => s.flushReadTag
  | .flushReadOrdered => s.flushReadOrdered
  | .relayFlushReadOrdered => s.relayFlushReadOrdered
  | .dmaReadWord => s.dmaReadWord.map Prod.snd
  | .dmaWriteReq addr words => s.dmaWriteReq addr words
  | .dmaWriteData data => s.dmaWriteData data
  | .splitDmaWriteReq => s.splitDmaWriteReq
  | .relayFreeWriteTag => s.relayFreeWriteTag
  | .splitDmaWriteReq2 => s.splitDmaWriteReq2
  | .generateHeaderTLP => s.generateHeaderTLP
  | .generateDataTLP => s.generateDataTLP
  | .relayTLPm => s.relayTLPm
  | .relayTLP => s.relayTLP.map Prod.snd
  | .relayUserSendTLP => s.relayUserSendTLP
  | .dataSend ioreq data => s.dataSend ioreq data
  | .sendTLPmRule rule => s.sendTLPmRule rule

end BluespecPcie

import BluespecPcie.Bluespec.Machine
import BluespecPcie.Dma.Tagged
import BluespecPcie.MergeN

/-! `mkDMAWideCtrl` of DMAWideCtrl.bsv: user DMA writes, and packets for a ring of the host. -/

namespace BluespecPcie

open Bluespec

structure WideWordTagged where
  word : BitVec 256
  tag : BitVec 8

/-- The write side of `mkDMAWideCtrl`. -/
structure DMAWideCtrl where
  enqReceivedIdx : BitVec 32
  enqIdx : BitVec 32
  enqDmaWriteQ : Fifo DMAWordTagged 32
  writeBuf : Nat → BitVec 32
  ioRecvQ : Fifo (BitVec 128) 8
  ioRecvHQ : Fifo (BitVec 32) 8
  userWriteQ : Fifo IOWrite 2
  userWrite1Q : Fifo IOWrite 2
  dmaWriteOut : BitVec 10
  dmaWritecQ : Fifo WideWordTagged 32
  dmaWriteQ : Fifo DMAWordTagged 64
  dmaWriteIn : BitVec 10
  reqQ : Fifo (BitVec 8 × DMAReq) 8
  writeReqQ : Fifo (BitVec 32 × BitVec 32 × BitVec 8) 8
  wm00 : Merge2 (BitVec 8 × DMAReq)
  dmaSerBuf : Option DMAWordTagged
  writeWordsRemain : BitVec 32
  writeCurAddr : BitVec 32
  writeCurTag : BitVec 8
  sfifodma : Fifo (BitVec 8 × DMAReq) 8
  assertInterruptQ : Fifo Bool 16
  dmaWriteCnt : BitVec 10
  dmaWriteSrc : BitVec 8
  enqcQ : Fifo (BitVec 128) 16
  enqQ : Fifo (BitVec 128) 8
  enq2Q : Fifo (BitVec 128) 16
  enqchQ : Fifo (BitVec 32) 16
  enqhQ : Fifo (BitVec 32) 8
  enqh2Q : Fifo (BitVec 32) 16
  enqState : BitVec 2
  enqOffset : BitVec 32
  enqDataQ : Fifo (BitVec 128) 2

/-- The module after reset. -/
def mkDMAWideCtrl : DMAWideCtrl where
  enqReceivedIdx := 0
  enqIdx := 0
  enqDmaWriteQ := .empty
  writeBuf := fun _ => 0
  ioRecvQ := .empty
  ioRecvHQ := .empty
  userWriteQ := .empty
  userWrite1Q := .empty
  dmaWriteOut := 0
  dmaWritecQ := .empty
  dmaWriteQ := .empty
  dmaWriteIn := 0
  reqQ := .empty
  writeReqQ := .empty
  wm00 := .init
  dmaSerBuf := none
  writeWordsRemain := 0
  writeCurAddr := 0
  writeCurTag := 0
  sfifodma := .empty
  assertInterruptQ := .empty
  dmaWriteCnt := 0
  dmaWriteSrc := 0
  enqcQ := .empty
  enqQ := .empty
  enq2Q := .empty
  enqchQ := .empty
  enqhQ := .empty
  enqh2Q := .empty
  enqState := 0
  enqOffset := 0
  enqDataQ := .empty

namespace DMAWideCtrl

-----------------------------------------------------------------------------------------
-- Host writes
-----------------------------------------------------------------------------------------

def getWriteReq (m : DMAWideCtrl) (d : IOWrite) : Option DMAWideCtrl := do
  let userWrite1Q ← m.userWrite1Q.enq d
  return { m with userWrite1Q }

/-- Words 16 and 17 set the indices of the ring, those below go on. -/
def procFC (m : DMAWideCtrl) : Option DMAWideCtrl := do
  let (d, userWrite1Q) ← m.userWrite1Q.deq
  let m := { m with userWrite1Q }
  if d.toffset < 16 then
    let userWriteQ ← m.userWriteQ.enq d
    return { m with userWriteQ }
  else if d.toffset = 16 then return { m with enqReceivedIdx := d.data }
  else if d.toffset = 17 then return { m with enqIdx := d.data }
  else return m

/-- Word 0 completes a word for the user. -/
def userWriteReq (m : DMAWideCtrl) : Option DMAWideCtrl := do
  let (d, userWriteQ) ← m.userWriteQ.deq
  let offset : BitVec 3 := (d.addr >>> 2).setWidth 3
  let m := { m with
    userWriteQ
    writeBuf := Function.update m.writeBuf offset.toNat d.data }
  if offset = 0 then
    let ioRecvQ ← m.ioRecvQ.enq (m.writeBuf 3 ++ m.writeBuf 2 ++ m.writeBuf 1 ++ d.data)
    let ioRecvHQ ← m.ioRecvHQ.enq (m.writeBuf 4)
    return { m with ioRecvQ, ioRecvHQ }
  else return m

-----------------------------------------------------------------------------------------
-- User DMA writes
-----------------------------------------------------------------------------------------

/-- A word of 256 bits becomes two words. -/
def relayDmaWriteQ (m : DMAWideCtrl) : Option DMAWideCtrl :=
  match m.dmaSerBuf with
  | some upper => do
      let dmaWriteQ ← m.dmaWriteQ.enq upper
      return { m with dmaWriteQ, dmaSerBuf := none }
  | none => do
      let (d, dmaWritecQ) ← m.dmaWritecQ.deq
      let dmaWriteQ ← m.dmaWriteQ.enq ⟨d.word.setWidth 128, d.tag⟩
      return { m with
        dmaWritecQ
        dmaWriteQ
        dmaSerBuf := some ⟨(d.word >>> 128).setWidth 128, d.tag⟩ }

def startDivideWriteReq (m : DMAWideCtrl) : Option DMAWideCtrl :=
  if m.writeWordsRemain = 0 then do
    let ((addr, words, tag), writeReqQ) ← m.writeReqQ.deq
    if words < 8 then
      let reqQ ← m.reqQ.enq (0, ⟨addr, words.setWidth 10, tag⟩)
      return { m with writeReqQ, reqQ }
    else
      let reqQ ← m.reqQ.enq (0, ⟨addr, 8, tag⟩)
      return { m with
        writeReqQ
        reqQ
        writeWordsRemain := words - 8
        writeCurAddr := addr + 128
        writeCurTag := tag }
  else none

def divideWritereq (m : DMAWideCtrl) : Option DMAWideCtrl :=
  if 0 < m.writeWordsRemain then
    if 8 ≤ m.writeWordsRemain then do
      let reqQ ← m.reqQ.enq (0, ⟨m.writeCurAddr, 8, m.writeCurTag⟩)
      return { m with
        writeCurAddr := m.writeCurAddr + 128
        reqQ
        writeWordsRemain := m.writeWordsRemain - 8 }
    else do
      let reqQ ← m.reqQ.enq (0, ⟨m.writeCurAddr, m.writeWordsRemain.setWidth 10, m.writeCurTag⟩)
      return { m with
        writeCurAddr := m.writeCurAddr + 128
        reqQ
        writeWordsRemain := 0 }
  else none

/-- A request goes on once its words are counted in. -/
def relaydmawrqsync (m : DMAWideCtrl) : Option DMAWideCtrl := do
  let (r, reqQ) ← m.reqQ.deq
  if r.2.words ≤ m.dmaWriteIn - m.dmaWriteOut then
    let sfifodma ← m.sfifodma.enq r
    return { m with reqQ, dmaWriteOut := m.dmaWriteOut + r.2.words, sfifodma }
  else none

def relaydmawrq (m : DMAWideCtrl) : Option DMAWideCtrl := do
  let (r, sfifodma) ← m.sfifodma.deq
  let wm00 ← m.wm00.enq 0 r
  return { m with sfifodma, wm00 }

/-- Rule `merge` of `wm00`. -/
def merge (m : DMAWideCtrl) : Option DMAWideCtrl := do
  let wm00 ← m.wm00.merge
  return { m with wm00 }

def assertInterrupt (m : DMAWideCtrl) : Option DMAWideCtrl := do
  let (_, assertInterruptQ) ← m.assertInterruptQ.deq
  return { m with assertInterruptQ }

def issuedmaWrite (m : DMAWideCtrl) : Option (DMAWideCtrl × Option DmaWriteCall) :=
  if m.dmaWriteCnt = 0 then do
    let ((src, cmd), wm00) ← m.wm00.deq
    return ({ m with wm00, dmaWriteSrc := src, dmaWriteCnt := cmd.words },
      some (.dmaWriteReq cmd.addr cmd.words cmd.tag))
  else none

/-- The words of a user request are in `dmaWriteQ`, those of a packet in `enqDmaWriteQ`. -/
def senddmaWriteData (m : DMAWideCtrl) : Option (DMAWideCtrl × Option DmaWriteCall) :=
  if 0 < m.dmaWriteCnt then
    if m.dmaWriteSrc = 0 then do
      let (d, dmaWriteQ) ← m.dmaWriteQ.deq
      return ({ m with dmaWriteCnt := m.dmaWriteCnt - 1, dmaWriteQ },
        some (.dmaWriteData d.word d.tag))
    else do
      let (d, enqDmaWriteQ) ← m.enqDmaWriteQ.deq
      let assertInterruptQ ←
        if m.dmaWriteCnt = 1 then m.assertInterruptQ.enq true else some m.assertInterruptQ
      return ({ m with dmaWriteCnt := m.dmaWriteCnt - 1, enqDmaWriteQ, assertInterruptQ },
        some (.dmaWriteData d.word d.tag))
  else none

-----------------------------------------------------------------------------------------
-- Packets
-----------------------------------------------------------------------------------------

def relayEnqPacket (m : DMAWideCtrl) : Option DMAWideCtrl := do
  let (word, enqcQ) ← m.enqcQ.deq
  let enqQ ← m.enqQ.enq word
  let (head, enqchQ) ← m.enqchQ.deq
  let enqhQ ← m.enqhQ.enq head
  return { m with enqcQ, enqQ, enqchQ, enqhQ }

def relayEnqPacketC (m : DMAWideCtrl) : Option DMAWideCtrl := do
  let (word, enqQ) ← m.enqQ.deq
  let enq2Q ← m.enq2Q.enq word
  let (head, enqhQ) ← m.enqhQ.deq
  let enqh2Q ← m.enqh2Q.enq head
  return { m with enqQ, enq2Q, enqhQ, enqh2Q }

/-- A packet gets its slot while the ring, as far as the host's index tells, is not full. -/
def startEnqPacket (m : DMAWideCtrl) : Option DMAWideCtrl :=
  if m.enqState = 0 ∧ m.enqIdx - m.enqReceivedIdx < 128 then do
    let (word, enq2Q) ← m.enq2Q.deq
    let enqDataQ ← m.enqDataQ.enq word
    let wm00 ← m.wm00.enq 1 (255, ⟨m.enqOffset, 2, 0⟩)
    return { m with
      enq2Q
      enqDataQ
      enqOffset := (m.enqOffset + 32) &&& 0xfff
      enqState := 1
      wm00 }
  else none

def sendEnqPacket (m : DMAWideCtrl) : Option DMAWideCtrl :=
  if m.enqState = 1 then do
    let (word, enqDataQ) ← m.enqDataQ.deq
    let enqDmaWriteQ ← m.enqDmaWriteQ.enq ⟨word, 0⟩
    return { m with enqState := 2, enqDataQ, enqDmaWriteQ }
  else none

/-- The second word of a packet: its index and its header. -/
def indexWord (idx head : BitVec 32) : DMAWord := idx.setWidth 96 ++ head

def sendEnqIdx (m : DMAWideCtrl) : Option DMAWideCtrl :=
  if m.enqState = 2 then do
    let (head, enqh2Q) ← m.enqh2Q.deq
    let enqDmaWriteQ ← m.enqDmaWriteQ.enq ⟨indexWord m.enqIdx head, 0⟩
    return { m with enqh2Q, enqIdx := m.enqIdx + 1, enqDmaWriteQ, enqState := 0 }
  else none

-----------------------------------------------------------------------------------------
-- Methods
-----------------------------------------------------------------------------------------

/-- The first 4 KB are the ring; the words of the caller are wide. -/
def dmaWriteReq (m : DMAWideCtrl) (addr words : BitVec 32) (tag : BitVec 8)
    : Option DMAWideCtrl := do
  let writeReqQ ← m.writeReqQ.enq (addr + 1024 * 4, words * 2, tag)
  return { m with writeReqQ }

def dmaWriteData (m : DMAWideCtrl) (data : BitVec 256) (tag : BitVec 8)
    : Option DMAWideCtrl := do
  let dmaWritecQ ← m.dmaWritecQ.enq ⟨data, tag⟩
  return { m with dmaWritecQ, dmaWriteIn := m.dmaWriteIn + 1 }

def enq (m : DMAWideCtrl) (head : BitVec 32) (word : BitVec 128) : Option DMAWideCtrl := do
  let enqcQ ← m.enqcQ.enq word
  let enqchQ ← m.enqchQ.enq head
  return { m with enqcQ, enqchQ }

/-- `header`, `first` and `deq`. -/
def deq (m : DMAWideCtrl) : Option ((BitVec 32 × BitVec 128) × DMAWideCtrl) := do
  let (word, ioRecvQ) ← m.ioRecvQ.deq
  let (head, ioRecvHQ) ← m.ioRecvHQ.deq
  return ((head, word), { m with ioRecvQ, ioRecvHQ })

end DMAWideCtrl

/-- A rule of the module. -/
inductive DMAWideCtrlRule where
  | procFC
  | userWriteReq
  | relayDmaWriteQ
  | startDivideWriteReq
  | divideWritereq
  | relaydmawrqsync
  | relaydmawrq
  | merge
  | assertInterrupt
  | issuedmaWrite
  | senddmaWriteData
  | relayEnqPacket
  | relayEnqPacketC
  | startEnqPacket
  | sendEnqPacket
  | sendEnqIdx

/-- A rule, with the call it makes. -/
def DMAWideCtrl.fire (m : DMAWideCtrl)
    : DMAWideCtrlRule → Option (DMAWideCtrl × Option DmaWriteCall)
  | .procFC => m.procFC.map (·, none)
  | .userWriteReq => m.userWriteReq.map (·, none)
  | .relayDmaWriteQ => m.relayDmaWriteQ.map (·, none)
  | .startDivideWriteReq => m.startDivideWriteReq.map (·, none)
  | .divideWritereq => m.divideWritereq.map (·, none)
  | .relaydmawrqsync => m.relaydmawrqsync.map (·, none)
  | .relaydmawrq => m.relaydmawrq.map (·, none)
  | .merge => m.merge.map (·, none)
  | .assertInterrupt => m.assertInterrupt.map (·, none)
  | .issuedmaWrite => m.issuedmaWrite
  | .senddmaWriteData => m.senddmaWriteData
  | .relayEnqPacket => m.relayEnqPacket.map (·, none)
  | .relayEnqPacketC => m.relayEnqPacketC.map (·, none)
  | .startEnqPacket => m.startEnqPacket.map (·, none)
  | .sendEnqPacket => m.sendEnqPacket.map (·, none)
  | .sendEnqIdx => m.sendEnqIdx.map (·, none)

end BluespecPcie

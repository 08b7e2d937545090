import BluespecPcie.Bluespec.Fifo
import BluespecPcie.Bluespec.Machine
import BluespecPcie.Dma.Tagged

/-! `mkDMAWriteHelper` of DMAWriteHelper.bsv: a stream of words written to host buffers. -/

namespace BluespecPcie

open Bluespec

-----------------------------------------------------------------------------------------
-- The module
-----------------------------------------------------------------------------------------

structure DMAWriteHelper where
  dmaWriteHostStartOff : Option (BitVec 32)
  dmaWriteHostOff : BitVec 32
  dmaWriteLeftWords : BitVec 32
  writeSyncQ : Fifo (Option DMAWord) 32
  writeBufferQ : Fifo (BitVec 32 × BitVec 32) 8
  writeBufferDataQ : Fifo DMAWord 512
  writeBufferFlush : Bool
  writeBufferCntUp : BitVec 16
  writeBufferCntDn : BitVec 16
  writeDoneQ : Fifo (Bool × BitVec 32 × BitVec 32) 2
  writeDoneQ2 : Fifo (Bool × BitVec 32 × BitVec 32) 32
  dmaWriteFreeTagQ : Fifo (BitVec 8) 32
  dmaWriteTagInit : BitVec 8
  dmaWriteTagInitDone : Bool
  dmaCurWriteLeft : BitVec 16
  dmaCurTag : BitVec 8
  dmaCurBufferWriteCnt : BitVec 32

/-- The module after reset. -/
def mkDMAWriteHelper : DMAWriteHelper where
  dmaWriteHostStartOff := none
  dmaWriteHostOff := 0
  dmaWriteLeftWords := 0
  writeSyncQ := .empty
  writeBufferQ := .empty
  writeBufferDataQ := .empty
  writeBufferFlush := false
  writeBufferCntUp := 0
  writeBufferCntDn := 0
  writeDoneQ := .empty
  writeDoneQ2 := .empty
  dmaWriteFreeTagQ := .empty
  dmaWriteTagInit := 0
  dmaWriteTagInitDone := false
  dmaCurWriteLeft := 0
  dmaCurTag := 0
  dmaCurBufferWriteCnt := 0

namespace DMAWriteHelper

/-- `dmaWriteTagCount`. -/
def dmaWriteTagCount : BitVec 8 := 32

/-- `writeBufferCntUp-writeBufferCntDn`, the words in `writeBufferDataQ`. -/
def qcount (m : DMAWriteHelper) : BitVec 16 := m.writeBufferCntUp - m.writeBufferCntDn

def relayWriteDone (m : DMAWriteHelper) : Option DMAWriteHelper := do
  let (d, writeDoneQ) ← m.writeDoneQ.deq
  let writeDoneQ2 ← m.writeDoneQ2.enq d
  return { m with writeDoneQ, writeDoneQ2 }

def initDmaTagW (m : DMAWriteHelper) : Option DMAWriteHelper :=
  if m.dmaWriteTagInit < dmaWriteTagCount ∧ m.dmaWriteTagInitDone = false then do
    let dmaWriteFreeTagQ ← m.dmaWriteFreeTagQ.enq (32 + m.dmaWriteTagInit)
    return { m with
      dmaWriteTagInit := m.dmaWriteTagInit + 1
      dmaWriteFreeTagQ
      dmaWriteTagInitDone :=
        if dmaWriteTagCount - 1 ≤ m.dmaWriteTagInit then true else m.dmaWriteTagInitDone }
  else none

def relayWriteSync (m : DMAWriteHelper) : Option DMAWriteHelper :=
  if m.writeBufferFlush = false then do
    let (d, writeSyncQ) ← m.writeSyncQ.deq
    match d with
    | some word => do
        let writeBufferDataQ ← m.writeBufferDataQ.enq word
        return { m with
          writeSyncQ
          writeBufferDataQ
          writeBufferCntUp := m.writeBufferCntUp + 1 }
    | none => return { m with writeSyncQ, writeBufferFlush := true }
  else none

/-- The report of a full burst, `writeDoneQ.enq` where it fills the buffer. -/
def reportFull (m : DMAWriteHelper) : Option (Fifo (Bool × BitVec 32 × BitVec 32) 2) :=
  if m.dmaWriteLeftWords = 8 then
    m.writeDoneQ.enq (false, m.dmaWriteHostStartOff.getD 0, m.dmaCurBufferWriteCnt + 8)
  else some m.writeDoneQ

/-- A full burst of 8 words. -/
def genPcieWrite (m : DMAWriteHelper) : Option (DMAWriteHelper × Option DmaWriteCall) :=
  if m.dmaCurWriteLeft = 0 ∧ 0 < m.dmaWriteLeftWords ∧ 8 < m.qcount then do
    let (writeTag, dmaWriteFreeTagQ) ← m.dmaWriteFreeTagQ.deq
    let writeDoneQ ← m.reportFull
    return ({ m with
      dmaWriteFreeTagQ
      dmaCurTag := writeTag
      dmaWriteHostOff := m.dmaWriteHostOff + 128
      dmaCurWriteLeft := 8
      dmaWriteLeftWords := m.dmaWriteLeftWords - 8
      writeDoneQ
      dmaCurBufferWriteCnt :=
        if m.dmaWriteLeftWords = 8 then 0 else m.dmaCurBufferWriteCnt + 8 },
      some (.dmaWriteReq m.dmaWriteHostOff 8 writeTag))
  else none

/-- The last burst before a flush, which may have no words. -/
def genPcieFlush (m : DMAWriteHelper) : Option (DMAWriteHelper × Option DmaWriteCall) :=
  if m.dmaCurWriteLeft = 0 ∧ 0 < m.dmaWriteLeftWords ∧ m.qcount ≤ 8 ∧ m.writeBufferFlush = true
  then do
    let (writeTag, dmaWriteFreeTagQ) ← m.dmaWriteFreeTagQ.deq
    let writeDoneQ ← m.writeDoneQ.enq
      (true, m.dmaWriteHostStartOff.getD 0, m.dmaCurBufferWriteCnt + m.qcount.setWidth 32)
    return ({ m with
      dmaWriteFreeTagQ
      dmaCurTag := writeTag
      dmaCurWriteLeft := m.qcount
      dmaWriteHostOff := m.dmaWriteHostOff + m.qcount.setWidth 32 * 16
      dmaWriteLeftWords := 0
      writeBufferFlush := false
      dmaWriteHostStartOff := none
      writeDoneQ
      dmaCurBufferWriteCnt := 0 },
      if 0 < m.qcount then
        some (.dmaWriteReq m.dmaWriteHostOff (m.qcount.setWidth 10) writeTag)
      else none)
  else none

/-- The tag of a burst is free again with its last word. -/
def freeTag (m : DMAWriteHelper) : Option (Fifo (BitVec 8) 32) :=
  if m.dmaCurWriteLeft = 1 then m.dmaWriteFreeTagQ.enq m.dmaCurTag else some m.dmaWriteFreeTagQ

def doPcieWrite (m : DMAWriteHelper) : Option (DMAWriteHelper × Option DmaWriteCall) :=
  if 0 < m.dmaCurWriteLeft then do
    let (d, writeBufferDataQ) ← m.writeBufferDataQ.deq
    let dmaWriteFreeTagQ ← m.freeTag
    return ({ m with
      writeBufferDataQ
      dmaCurWriteLeft := m.dmaCurWriteLeft - 1
      writeBufferCntDn := m.writeBufferCntDn + 1
      dmaWriteFreeTagQ },
      some (.dmaWriteData d m.dmaCurTag))
  else none

def procHostBuffer (m : DMAWriteHelper) : Option DMAWriteHelper :=
  if m.dmaWriteLeftWords = 0 then do
    let ((off, bytes), writeBufferQ) ← m.writeBufferQ.deq
    return { m with
      writeBufferQ
      dmaWriteHostStartOff := some off
      dmaWriteHostOff := off
      dmaWriteLeftWords := bytes >>> 4 }
  else none

def addHostBuffer (m : DMAWriteHelper) (off bytes : BitVec 32) : Option DMAWriteHelper := do
  let writeBufferQ ← m.writeBufferQ.enq (off, bytes)
  return { m with writeBufferQ }

def write (m : DMAWriteHelper) (data : Option DMAWord) : Option DMAWriteHelper := do
  let writeSyncQ ← m.writeSyncQ.enq data
  return { m with writeSyncQ }

/-- What `bufferDone` makes of an entry of `writeDoneQ2`: words become bytes. -/
def message (d : Bool × BitVec 32 × BitVec 32) : Bool × BitVec 32 × BitVec 32 :=
  (d.1, d.2.1, d.2.2 <<< 4)

def bufferDone (m : DMAWriteHelper)
    : Option ((Bool × BitVec 32 × BitVec 32) × DMAWriteHelper) := do
  let (d, writeDoneQ2) ← m.writeDoneQ2.deq
  return (message d, { m with writeDoneQ2 })

end DMAWriteHelper

-----------------------------------------------------------------------------------------
-- Runs over an interface
-----------------------------------------------------------------------------------------

inductive DMAWriteHelperRule where
  | relayWriteDone
  | initDmaTagW
  | relayWriteSync
  | genPcieWrite
  | genPcieFlush
  | doPcieWrite
  | procHostBuffer

/-- What can happen: a rule, a step of the interface, or a call of a method. -/
inductive DMAWriteHelperEvent where
  | rule (rule : DMAWriteHelperRule)
  | pcie
  | addHostBuffer (off bytes : BitVec 32)
  | write (data : Option DMAWord)
  | bufferDone

namespace DMAWriteHelper

/-- A rule, with the call it makes. -/
def fire (m : DMAWriteHelper)
    : DMAWriteHelperRule → Option (DMAWriteHelper × Option DmaWriteCall)
  | .relayWriteDone => m.relayWriteDone.map (·, none)
  | .initDmaTagW => m.initDmaTagW.map (·, none)
  | .relayWriteSync => m.relayWriteSync.map (·, none)
  | .genPcieWrite => m.genPcieWrite
  | .genPcieFlush => m.genPcieFlush
  | .doPcieWrite => m.doPcieWrite
  | .procHostBuffer => m.procHostBuffer.map (·, none)

/-- One event of the module over the interface `P`; a rule needs the interface to take its call.
-/
def step (P : TaggedDma) (s : DMAWriteHelper × P.State)
    : DMAWriteHelperEvent → Option (DMAWriteHelper × P.State)
  | .rule rule => do
      let (m, call) ← s.1.fire rule
      let p ← P.accept s.2 call
      return (m, p)
  | .pcie => (P.internal s.2).map (s.1, ·)
  | .addHostBuffer off bytes => (s.1.addHostBuffer off bytes).map (·, s.2)
  | .write data => (s.1.write data).map (·, s.2)
  | .bufferDone => s.1.bufferDone.map (fun done => (done.2, s.2))

end DMAWriteHelper

/-- A DMA write that was requested, with the buffer that was in use. -/
structure BufferWrite where
  off : BitVec 32
  bytes : BitVec 32
  addr : BitVec 32
  words : BitVec 10

/-- The write lies inside the buffer that was in use. -/
def BufferWrite.Inside (w : BufferWrite) : Prop :=
  ∃ k, w.addr = TaggedDma.wordAddr w.off k ∧ 16 * (k + w.words.toNat) ≤ w.bytes.toNat

/-- The calls made and what they returned, the buffer in use and the DMA writes requested. -/
structure WriteHelperLog where
  written : List (Option DMAWord) := []
  done : List (Bool × BitVec 32 × BitVec 32) := []
  buffer : BitVec 32 × BitVec 32 := (0, 0)
  requests : List BufferWrite := []

namespace WriteHelperLog

/-- The DMA write that a call requests. -/
def requested (log : WriteHelperLog) : Option DmaWriteCall → List BufferWrite
  | some (.dmaWriteReq addr words _) => [⟨log.buffer.1, log.buffer.2, addr, words⟩]
  | _ => []

/-- The buffer in use after a rule. -/
def bufferAfter (log : WriteHelperLog) (m : DMAWriteHelper)
    : DMAWriteHelperRule → BitVec 32 × BitVec 32
  | .procHostBuffer => m.writeBufferQ.first.getD log.buffer
  | _ => log.buffer

/-- How an event extends the history. -/
def record {σ : Type} (s : DMAWriteHelper × σ) (e : DMAWriteHelperEvent) (log : WriteHelperLog)
    : WriteHelperLog :=
  match e with
  | .rule rule =>
      { log with
        buffer := log.bufferAfter s.1 rule
        requests := log.requests ++ log.requested ((s.1.fire rule).bind Prod.snd) }
  | .write data => { log with written := log.written ++ [data] }
  | .bufferDone => { log with done := log.done ++ (s.1.bufferDone.map Prod.fst).toList }
  | .pcie | .addHostBuffer _ _ => log

end WriteHelperLog

end BluespecPcie

import BluespecPcie.Bluespec.Machine
import BluespecPcie.Dma.ReadLanes

/-! `mkDRAMHostDMA` of DRAMHostDMA.bsv: pages copied between host and DRAM by commands of the host,
with a chained access of user logic to the same DRAM.
-/

namespace BluespecPcie

open Bluespec

-----------------------------------------------------------------------------------------
-- The burst reader
-----------------------------------------------------------------------------------------

/-- Addresses of a run of DRAM words. -/
def dramAddrs (off : BitVec 64) (n : Nat) : List (BitVec 64) :=
  (List.range n).map (fun i => off + BitVec.ofNat 64 (64 * i))

/-- A `DRAMBurstReaderIfc` that serves bursts in order. It may refuse a request, and it may do steps
of its own. When it accepts a burst while words of another one are not taken yet, it returns the
words of the new burst behind them.
-/
structure BurstReader where
  State : Type
  init : State
  readReq : State → BitVec 64 → BitVec 32 → Option State
  read : State → Option (BitVec 512 × State)
  internal : State → Option State
  /-- Where the words of the bursts are that are not taken yet. -/
  owes : State → List (BitVec 64)
  owes_init : owes init = []
  of_readReq
    : ∀ {s s' addr words},
        readReq s addr words = some s' → owes s' = owes s ++ dramAddrs addr words.toNat
  of_read : ∀ {s s' word}, read s = some (word, s') → ∃ addr, owes s = addr :: owes s'
  of_internal : ∀ {s s'}, internal s = some s' → owes s' = owes s

/-- A reader that takes a burst once all words before it are in its output queue, which holds two;
`dram` is what it reads. Its state has the words to come, and how many of them are in that queue.
-/
def BurstReader.queued (dram : BitVec 64 → BitVec 512) : BurstReader where
  State := List (BitVec 64) × Nat
  init := ([], 0)
  readReq s addr words :=
    if s.2 = s.1.length then some (s.1 ++ dramAddrs addr words.toNat, s.2) else none
  read s :=
    match s.1, s.2 with
    | addr :: rest, n + 1 => some (dram addr, (rest, n))
    | _, _ => none
  internal s := if s.2 < s.1.length ∧ s.2 < 2 then some (s.1, s.2 + 1) else none
  owes := Prod.fst
  owes_init := rfl
  of_readReq := by
    intro s s' addr words accepted
    split at accepted
    next =>
      cases accepted
      rfl
    next => cases accepted
  of_read := by
    intro s s' word taken
    split at taken
    next addr rest n owed _ =>
      cases taken
      exact ⟨addr, owed⟩
    next => cases taken
  of_internal := by
    intro s s' moved
    split at moved
    next =>
      cases moved
      rfl
    next => cases moved

-----------------------------------------------------------------------------------------
-- The module
-----------------------------------------------------------------------------------------

structure DRAMHostDMA where
  pcieOutQ : Fifo IOWrite 16
  hostMemOff : BitVec 32
  memReadLeft : BitVec 32
  memWriteLeft : BitVec 32
  dmaReadWordCntQ : Fifo (BitVec 64 × BitVec 32) 32
  /-- The registers of the read tags; `dmaReadTagCount` is 16 and `curReadTag` has 8 bits. -/
  reads : ReadReorder 16 8
  dramWriteBurstLeft : BitVec 32
  dramWriteBuffer : BitVec 512
  dramWriteBufferOffset : BitVec 2
  dramWriteBurstDoneQ : Fifo Bool 16
  dmaWriteFreeTagQ : Fifo (BitVec 8) 32
  dmaWriteTagInit : BitVec 8
  dmaWriteTagInitDone : Bool
  dramReadWordCntQ : Fifo (BitVec 64 × BitVec 32) 16
  dramReadWordQ : Fifo (BitVec 512) 16
  dramBurstReadLeft : BitVec 32
  dmaWriteCurTag : BitVec 8
  pcieWriteReqQ : Fifo (BitVec 32 × BitVec 8) 2
  dramReadBurstDoneQ : Fifo Bool 2
  dramReadWordQ2 : Fifo (BitVec 512) 128
  dramReadWordCntUp : BitVec 16
  dramReadWordCntDn : BitVec 16
  dmaCurWriteLeft : BitVec 8
  dmaCurWriteLast : Bool
  dmaWriteDRAMWordBuffer : BitVec 512
  dmaWriteDRAMWordBufferOffset : BitVec 2
  pcieDmaWriteDoneQ : Fifo Bool 16
  dramWriteBurstDoneCount : BitVec 32
  dramReadBurstDoneCount : BitVec 32
  dmaCmdQ : Fifo (Bool × BitVec 32 × BitVec 32 × BitVec 32) 2
  hostMemTemp : BitVec 32
  fpgaMemTemp : BitVec 32
  chainReadWordsLeft : BitVec 32
  chainWriteWordsLeft : BitVec 32
  chainIoCmdQ : Fifo (Bool × BitVec 64 × BitVec 32) 16
  chainWriteQ : Fifo (BitVec 512) 16
  chainReadQ : Fifo (BitVec 512) 16

/-- The module after reset. -/
def mkDRAMHostDMA : DRAMHostDMA where
  pcieOutQ := .empty
  hostMemOff := 0
  memReadLeft := 0
  memWriteLeft := 0
  dmaReadWordCntQ := .empty
  reads := .init
  dramWriteBurstLeft := 0
  dramWriteBuffer := 0
  dramWriteBufferOffset := 0
  dramWriteBurstDoneQ := .empty
  dmaWriteFreeTagQ := .empty
  dmaWriteTagInit := 0
  dmaWriteTagInitDone := false
  dramReadWordCntQ := .empty
  dramReadWordQ := .empty
  dramBurstReadLeft := 0
  dmaWriteCurTag := 0
  pcieWriteReqQ := .empty
  dramReadBurstDoneQ := .empty
  dramReadWordQ2 := .empty
  dramReadWordCntUp := 0
  dramReadWordCntDn := 0
  dmaCurWriteLeft := 0
  dmaCurWriteLast := false
  dmaWriteDRAMWordBuffer := 0
  dmaWriteDRAMWordBufferOffset := 0
  pcieDmaWriteDoneQ := .empty
  dramWriteBurstDoneCount := 0
  dramReadBurstDoneCount := 0
  dmaCmdQ := .empty
  hostMemTemp := 0
  fpgaMemTemp := 0
  chainReadWordsLeft := 0
  chainWriteWordsLeft := 0
  chainIoCmdQ := .empty
  chainWriteQ := .empty
  chainReadQ := .empty

/-- A call of a method that writes, of the PCIe interface or of `DRAMBurstWriterIfc`. -/
inductive HostDmaCall where
  | pcie (call : DmaWriteCall)
  | writeReq (addr : BitVec 64) (words : BitVec 32)
  | write (word : BitVec 512)

namespace DRAMHostDMA

-----------------------------------------------------------------------------------------
-- Host to DRAM
-----------------------------------------------------------------------------------------

/-- The words of the next chunk: 8, or what is left, rounded up. -/
def chunkWords (m : DRAMHostDMA) : BitVec 8 :=
  if 128 ≤ m.memReadLeft then 128 >>> 4 else ((m.memReadLeft + 15) >>> 4).setWidth 8

/-- `sendDMARead`, with the tag of the request that it makes at `hostMemOff`. -/
def sendDMARead (m : DRAMHostDMA) : Option (BitVec 8 × DRAMHostDMA) :=
  if m.reads.dmaReadTagInitDone = true ∧ 0 < m.memReadLeft ∧ m.memWriteLeft = 0 then do
    let (freeTag, reads) ← m.reads.sendChunk m.chunkWords
    return (freeTag, { m with
      reads
      memReadLeft := if 128 ≤ m.memReadLeft then m.memReadLeft - 128 else 0
      hostMemOff := if 128 ≤ m.memReadLeft then m.hostMemOff + 128 else m.hostMemOff })
  else none

/-- A rule of the read tags alone. -/
def onReads (m : DRAMHostDMA) (reads : Option (ReadReorder 16 8)) : Option DRAMHostDMA :=
  reads.map ({ m with reads := · })

def dramStartBurst (m : DRAMHostDMA) : Option (DRAMHostDMA × List HostDmaCall) :=
  if m.dramWriteBurstLeft = 0 then do
    let ((off, words), dmaReadWordCntQ) ← m.dmaReadWordCntQ.deq
    return ({ m with dmaReadWordCntQ, dramWriteBurstLeft := words },
      [.writeReq off (words >>> 2)])
  else none

/-- `dramWriteBurstDoneQ.enq` with the last word of a burst. -/
def writeBurstDone (m : DRAMHostDMA) : Option (Fifo Bool 16) :=
  if m.dramWriteBurstLeft = 1 then m.dramWriteBurstDoneQ.enq true else some m.dramWriteBurstDoneQ

/-- `{d,truncateLSB(dramWriteBuffer)}`. -/
def packed (m : DRAMHostDMA) (d : DMAWord) : BitVec 512 :=
  d ++ (m.dramWriteBuffer >>> 128).setWidth 384

def relayDRAMWriteBurst (m : DRAMHostDMA) : Option (DRAMHostDMA × List HostDmaCall) :=
  if 0 < m.dramWriteBurstLeft then do
    let (d, reads) ← m.reads.takeWord
    let dramWriteBurstDoneQ ← m.writeBurstDone
    if m.dramWriteBufferOffset = 3 ∨ m.dramWriteBurstLeft = 1 then
      return ({ m with
        reads
        dramWriteBurstLeft := m.dramWriteBurstLeft - 1
        dramWriteBurstDoneQ
        dramWriteBufferOffset := 0
        dramWriteBuffer := 0 }, [.write (m.packed d)])
    else
      return ({ m with
        reads
        dramWriteBurstLeft := m.dramWriteBurstLeft - 1
        dramWriteBurstDoneQ
        dramWriteBuffer := m.packed d
        dramWriteBufferOffset := m.dramWriteBufferOffset + 1 }, [])
  else none

-----------------------------------------------------------------------------------------
-- DRAM to host
-----------------------------------------------------------------------------------------

/-- `dmaWriteTagCount`. -/
def dmaWriteTagCount : BitVec 8 := 32

def initDmaTagW (m : DRAMHostDMA) : Option DRAMHostDMA :=
  if m.dmaWriteTagInit < dmaWriteTagCount ∧ m.dmaWriteTagInitDone = false then do
    let dmaWriteFreeTagQ ← m.dmaWriteFreeTagQ.enq (16 + m.dmaWriteTagInit)
    return { m with
      dmaWriteTagInit := m.dmaWriteTagInit + 1
      dmaWriteFreeTagQ
      dmaWriteTagInitDone :=
        if dmaWriteTagCount - 1 ≤ m.dmaWriteTagInit then true else m.dmaWriteTagInitDone }
  else none

/-- The burst that `startDRAMRead` requests, and the state after it. -/
def startDRAMRead (m : DRAMHostDMA) : Option ((BitVec 64 × BitVec 32) × DRAMHostDMA) :=
  if m.dramBurstReadLeft = 0 then do
    let ((off, words), dramReadWordCntQ) ← m.dramReadWordCntQ.deq
    return ((off, words), { m with dramReadWordCntQ, dramBurstReadLeft := words })
  else none

/-- The word `d` comes from `dramr.read`. -/
def relayDRAMWord (m : DRAMHostDMA) (d : BitVec 512) : Option DRAMHostDMA :=
  if 0 < m.dramBurstReadLeft then do
    let dramReadWordQ ← m.dramReadWordQ.enq d
    return { m with dramBurstReadLeft := m.dramBurstReadLeft - 1, dramReadWordQ }
  else none

/-- The words of the next write, rounded up. -/
def writeWords (m : DRAMHostDMA) : BitVec 8 :=
  if 128 < m.memWriteLeft then 128 >>> 4
  else if 0 < m.memWriteLeft.extractLsb' 0 4 then (m.memWriteLeft >>> 4).setWidth 8 + 1
  else (m.memWriteLeft >>> 4).setWidth 8

def genPcieDmaWrite (m : DRAMHostDMA) : Option DRAMHostDMA :=
  if 0 < m.memWriteLeft ∧ m.memReadLeft = 0 then do
    let pcieWriteReqQ ← m.pcieWriteReqQ.enq (m.hostMemOff, m.writeWords)
    let dramReadBurstDoneQ ← m.dramReadBurstDoneQ.enq (decide (m.memWriteLeft ≤ 128))
    return { m with
      memWriteLeft := if 128 < m.memWriteLeft then m.memWriteLeft - 128 else 0
      hostMemOff := if 128 < m.memWriteLeft then m.hostMemOff + 128 else m.hostMemOff
      pcieWriteReqQ
      dramReadBurstDoneQ }
  else none

def relayDRAMRead (m : DRAMHostDMA) : Option DRAMHostDMA := do
  let (d, dramReadWordQ) ← m.dramReadWordQ.deq
  let dramReadWordQ2 ← m.dramReadWordQ2.enq d
  return { m with
    dramReadWordQ
    dramReadWordQ2
    dramReadWordCntUp := m.dramReadWordCntUp + 1 }

/-- Enough words of the next write are read from DRAM. -/
def wordsReady (m : DRAMHostDMA) (words : BitVec 8) : Bool :=
  (words >>> 2).setWidth 16 ≤ m.dramReadWordCntUp - m.dramReadWordCntDn

def sendPcieDmaWrite (m : DRAMHostDMA) : Option (DRAMHostDMA × List HostDmaCall) :=
  if m.dmaCurWriteLeft = 0 then do
    let ((off, words), pcieWriteReqQ) ← m.pcieWriteReqQ.deq
    let (writeTag, dmaWriteFreeTagQ) ← m.dmaWriteFreeTagQ.deq
    let (last, dramReadBurstDoneQ) ← m.dramReadBurstDoneQ.deq
    if m.wordsReady words then
      some ({ m with
        pcieWriteReqQ
        dmaWriteFreeTagQ
        dmaWriteCurTag := writeTag
        dmaCurWriteLeft := words
        dramReadBurstDoneQ
        dmaCurWriteLast := last }, [.pcie (.dmaWriteReq off (words.setWidth 10) writeTag)])
    else none
  else none

/-- The tag of a write is free again with its last word. -/
def freeWriteTag (m : DRAMHostDMA) : Option (Fifo (BitVec 8) 32) :=
  if m.dmaCurWriteLeft = 1 then m.dmaWriteFreeTagQ.enq m.dmaWriteCurTag
  else some m.dmaWriteFreeTagQ

/-- `pcieDmaWriteDoneQ.enq` with the last word of a command. -/
def writeDone (m : DRAMHostDMA) : Option (Fifo Bool 16) :=
  if m.dmaCurWriteLeft = 1 ∧ m.dmaCurWriteLast = true then m.pcieDmaWriteDoneQ.enq true
  else some m.pcieDmaWriteDoneQ

def splitDRAMWord (m : DRAMHostDMA) : Option (DRAMHostDMA × List HostDmaCall) :=
  if 0 < m.dmaCurWriteLeft ∧ m.dmaWriteTagInitDone = true then do
    let dmaWriteFreeTagQ ← m.freeWriteTag
    let pcieDmaWriteDoneQ ← m.writeDone
    if m.dmaWriteDRAMWordBufferOffset = 0 then do
      let (d, dramReadWordQ2) ← m.dramReadWordQ2.deq
      return ({ m with
        dmaCurWriteLeft := m.dmaCurWriteLeft - 1
        dmaWriteDRAMWordBufferOffset := m.dmaWriteDRAMWordBufferOffset + 1
        dmaWriteFreeTagQ
        pcieDmaWriteDoneQ
        dramReadWordQ2
        dramReadWordCntDn := m.dramReadWordCntDn + 1
        dmaWriteDRAMWordBuffer := d >>> 128 },
        [.pcie (.dmaWriteData (d.setWidth 128) m.dmaWriteCurTag)])
    else
      return ({ m with
        dmaCurWriteLeft := m.dmaCurWriteLeft - 1
        dmaWriteDRAMWordBufferOffset := m.dmaWriteDRAMWordBufferOffset + 1
        dmaWriteFreeTagQ
        pcieDmaWriteDoneQ
        dmaWriteDRAMWordBuffer := m.dmaWriteDRAMWordBuffer >>> 128 },
        [.pcie (.dmaWriteData (m.dmaWriteDRAMWordBuffer.setWidth 128) m.dmaWriteCurTag)])
  else none

-----------------------------------------------------------------------------------------
-- Commands
-----------------------------------------------------------------------------------------

def accDRAMBurstDone (m : DRAMHostDMA) : Option DRAMHostDMA := do
  let (_, dramWriteBurstDoneQ) ← m.dramWriteBurstDoneQ.deq
  return { m with
    dramWriteBurstDoneQ
    dramWriteBurstDoneCount := m.dramWriteBurstDoneCount + 1 }

def accDRAMBurstRDone (m : DRAMHostDMA) : Option DRAMHostDMA := do
  let (_, pcieDmaWriteDoneQ) ← m.pcieDmaWriteDoneQ.deq
  return { m with
    pcieDmaWriteDoneQ
    dramReadBurstDoneCount := m.dramReadBurstDoneCount + 1 }

def procCmd (m : DRAMHostDMA) : Option DRAMHostDMA :=
  if m.memReadLeft = 0 ∧ m.memWriteLeft = 0 then do
    let ((write, hostpage, fpgapage, pages), dmaCmdQ) ← m.dmaCmdQ.deq
    match write with
    | true => do
        let dramReadWordCntQ ← m.dramReadWordCntQ.enq (fpgapage.setWidth 64 <<< 12, pages <<< 6)
        return { m with
          dmaCmdQ
          hostMemOff := hostpage <<< 12
          memWriteLeft := pages <<< 12
          dramReadWordCntQ }
    | false => do
        let dmaReadWordCntQ ← m.dmaReadWordCntQ.enq (fpgapage.setWidth 64 <<< 12, pages <<< 8)
        return { m with
          dmaCmdQ
          hostMemOff := hostpage <<< 12
          memReadLeft := pages <<< 12
          dmaReadWordCntQ }
  else none

/-- `getCmd`; `w` comes from `pcie.dataReceive`. -/
def getCmd (m : DRAMHostDMA) (w : IOWrite) : Option DRAMHostDMA :=
  let off := w.addr >>> 2
  if off = 256 then some { m with hostMemTemp := w.data }
  else if off = 257 then some { m with fpgaMemTemp := w.data }
  else if off = 258 then do
    let dmaCmdQ ← m.dmaCmdQ.enq (false, m.hostMemTemp, m.fpgaMemTemp, w.data)
    return { m with dmaCmdQ }
  else if off = 259 then do
    let dmaCmdQ ← m.dmaCmdQ.enq (true, m.hostMemTemp, m.fpgaMemTemp, w.data)
    return { m with dmaCmdQ }
  else do
    let pcieOutQ ← m.pcieOutQ.enq w
    return { m with pcieOutQ }

def dataReceive (m : DRAMHostDMA) : Option (IOWrite × DRAMHostDMA) := do
  let (w, pcieOutQ) ← m.pcieOutQ.deq
  return (w, { m with pcieOutQ })

-----------------------------------------------------------------------------------------
-- The chained DRAM interface
-----------------------------------------------------------------------------------------

/-- The oldest chained request. -/
def chainCmd (m : DRAMHostDMA) : Option ((Bool × BitVec 64 × BitVec 32) × DRAMHostDMA) :=
  if m.chainReadWordsLeft = 0 ∧ m.chainWriteWordsLeft = 0 then do
    let ((write, addr, words), chainIoCmdQ) ← m.chainIoCmdQ.deq
    return ((write, addr, words),
      if write = true then { m with chainIoCmdQ, chainWriteWordsLeft := words }
      else { m with chainIoCmdQ, chainReadWordsLeft := words })
  else none

def relayChainWrite (m : DRAMHostDMA) : Option (DRAMHostDMA × List HostDmaCall) :=
  if 0 < m.chainWriteWordsLeft ∧ m.dramWriteBurstLeft = 0 then do
    let (word, chainWriteQ) ← m.chainWriteQ.deq
    return ({ m with chainWriteQ, chainWriteWordsLeft := m.chainWriteWordsLeft - 1 },
      [.write word])
  else none

/-- The word `d` comes from `dramr.read`. -/
def relayChainRead (m : DRAMHostDMA) (d : BitVec 512) : Option DRAMHostDMA :=
  if 0 < m.chainReadWordsLeft ∧ m.dramBurstReadLeft = 0 then do
    let chainReadQ ← m.chainReadQ.enq d
    return { m with chainReadWordsLeft := m.chainReadWordsLeft - 1, chainReadQ }
  else none

/-- `writeReq` and `readReq` of the chained interface. -/
def chainReq (m : DRAMHostDMA) (write : Bool) (addr : BitVec 64) (words : BitVec 32)
    : Option DRAMHostDMA := do
  let chainIoCmdQ ← m.chainIoCmdQ.enq (write, addr, words)
  return { m with chainIoCmdQ }

def chainWrite (m : DRAMHostDMA) (word : BitVec 512) : Option DRAMHostDMA := do
  let chainWriteQ ← m.chainWriteQ.enq word
  return { m with chainWriteQ }

def chainRead (m : DRAMHostDMA) : Option (BitVec 512 × DRAMHostDMA) := do
  let (word, chainReadQ) ← m.chainReadQ.deq
  return (word, { m with chainReadQ })

end DRAMHostDMA

-----------------------------------------------------------------------------------------
-- Runs over the interfaces
-----------------------------------------------------------------------------------------

inductive DRAMHostDMARule where
  | initDmaTagR
  | sendDMARead
  | getDMARead
  | relayDmaReadWords
  | startReorderRead
  | reorderRead
  | dramStartBurst
  | relayDRAMWriteBurst
  | initDmaTagW
  | startDRAMRead
  | relayDRAMWord
  | genPcieDmaWrite
  | relayDRAMRead
  | sendPcieDmaWrite
  | splitDRAMWord
  | accDRAMBurstDone
  | accDRAMBurstRDone
  | procCmd
  | relayChainCmd
  | relayChainWrite
  | relayChainRead
deriving DecidableEq

/-- What can happen: a rule, `getCmd` with the write that it receives, a step of the PCIe interface
among `χ`, a step of the burst reader, or a call of a method.
-/
inductive DRAMHostDMAEvent (χ : Type) where
  | rule (rule : DRAMHostDMARule)
  | getCmd (w : IOWrite)
  | pcie (choice : χ)
  | reader
  | dataReceive
  | chainReq (write : Bool) (addr : BitVec 64) (words : BitVec 32)
  | chainWrite (word : BitVec 512)
  | chainRead

namespace DRAMHostDMA

variable {mem : BitVec 32 → DMAWord}

/-- A rule that neither takes nor asks for a word. -/
def plain {σ : Type} (s : DRAMHostDMA × σ) (m : Option DRAMHostDMA)
    : Option ((DRAMHostDMA × σ) × List HostDmaCall) :=
  m.map (fun next => ((next, s.2), []))

/-- A rule that makes calls of methods that write. -/
def calling {σ : Type} (s : DRAMHostDMA × σ) (m : Option (DRAMHostDMA × List HostDmaCall))
    : Option ((DRAMHostDMA × σ) × List HostDmaCall) :=
  m.map (fun next => ((next.1, s.2), next.2))

/-- A rule over the PCIe interface `P` and the burst reader `R`, with the calls that it makes of
methods that write. Where such a method is not ready the rule does not fire.
-/
def fire (P : TaggedReads mem) (R : BurstReader) (s : DRAMHostDMA × P.State × R.State)
    : DRAMHostDMARule → Option ((DRAMHostDMA × P.State × R.State) × List HostDmaCall)
  | .initDmaTagR => plain s (s.1.onReads s.1.reads.initDmaTagR)
  | .sendDMARead => do
      let (tag, m) ← s.1.sendDMARead
      let p ← P.dmaReadReq s.2.1 s.1.hostMemOff (s.1.chunkWords.setWidth 10) tag
      return ((m, p, s.2.2), [])
  | .getDMARead => do
      let ((tag, word), p) ← P.dmaReadWord s.2.1
      let m ← s.1.onReads (s.1.reads.getDMARead tag word)
      return ((m, p, s.2.2), [])
  | .relayDmaReadWords => plain s (s.1.onReads s.1.reads.relayDmaReadWords)
  | .startReorderRead => plain s (s.1.onReads s.1.reads.startReorderRead)
  | .reorderRead => plain s (s.1.onReads s.1.reads.reorderRead)
  | .dramStartBurst => calling s s.1.dramStartBurst
  | .relayDRAMWriteBurst => calling s s.1.relayDRAMWriteBurst
  | .initDmaTagW => plain s s.1.initDmaTagW
  | .startDRAMRead => do
      let ((off, words), m) ← s.1.startDRAMRead
      let r ← R.readReq s.2.2 off words
      return ((m, s.2.1, r), [])
  | .relayDRAMWord => do
      let (d, r) ← R.read s.2.2
      let m ← s.1.relayDRAMWord d
      return ((m, s.2.1, r), [])
  | .genPcieDmaWrite => plain s s.1.genPcieDmaWrite
  | .relayDRAMRead => plain s s.1.relayDRAMRead
  | .sendPcieDmaWrite => calling s s.1.sendPcieDmaWrite
  | .splitDRAMWord => calling s s.1.splitDRAMWord
  | .accDRAMBurstDone => plain s s.1.accDRAMBurstDone
  | .accDRAMBurstRDone => plain s s.1.accDRAMBurstRDone
  | .procCmd => plain s s.1.procCmd
  | .relayChainCmd => do
      let ((write, addr, words), m) ← s.1.chainCmd
      match write with
      | true => some ((m, s.2), [.writeReq addr words])
      | false => do
          let r ← R.readReq s.2.2 addr words
          return ((m, s.2.1, r), [])
  | .relayChainWrite => calling s s.1.relayChainWrite
  | .relayChainRead => do
      let (d, r) ← R.read s.2.2
      let m ← s.1.relayChainRead d
      return ((m, s.2.1, r), [])

/-- One event of the module over the interfaces. -/
def step (P : TaggedReads mem) (R : BurstReader) (s : DRAMHostDMA × P.State × R.State)
    : DRAMHostDMAEvent P.Choice → Option (DRAMHostDMA × P.State × R.State)
  | .rule rule => (fire P R s rule).map Prod.fst
  | .getCmd w => (s.1.getCmd w).map (·, s.2)
  | .pcie choice => (P.internal s.2.1 choice).map (fun p => (s.1, p, s.2.2))
  | .reader => (R.internal s.2.2).map (fun r => (s.1, s.2.1, r))
  | .dataReceive => s.1.dataReceive.map (fun taken => (taken.2, s.2))
  | .chainReq write addr words => (s.1.chainReq write addr words).map (·, s.2)
  | .chainWrite word => (s.1.chainWrite word).map (·, s.2)
  | .chainRead => s.1.chainRead.map (fun taken => (taken.2, s.2))

end DRAMHostDMA

end BluespecPcie

import BluespecPcie.PcieCtrl.ReadRules

/-! Rules of the DMA write path and of the transmit side. -/

namespace BluespecPcie

open Bluespec

/-- One burst of `splitDmaWriteReq2`. -/
def splitWrite (dmaStartAddr : BitVec 32) (dmaSendWords : BitVec 10) : Split :=
  let towrite := if dmaSendWords ≥ dma_max_words then dma_max_words else dmaSendWords
  if internalWords dmaStartAddr > towrite then
    { words := towrite
      wordsLeft := dmaSendWords - towrite
      startAddr := dmaStartAddr + (towrite.zeroExtend 32 <<< 4) }
  else
    { words := internalWords dmaStartAddr
      wordsLeft := dmaSendWords - internalWords dmaStartAddr
      startAddr := nextPageStart dmaStartAddr }

namespace PcieCtrl

-----------------------------------------------------------------------------------------
-- Requests and data
-----------------------------------------------------------------------------------------

/-- Method `dmaWriteReq`; the source leaves the request's tag unspecified and unused. -/
def dmaWriteReq (s : PcieCtrl) (addr : BitVec 32) (words : BitVec 10) : Option PcieCtrl := do
  let dmaWriteReqQ ← s.writes.dmaWriteReqQ.enq { addr, words, tag := 0 }
  return { s with writes.dmaWriteReqQ := dmaWriteReqQ }

/-- Method `dmaWriteData`. -/
def dmaWriteData (s : PcieCtrl) (data : DMAWord) : Option PcieCtrl := do
  let dmaWriteWordQ ← s.writes.dmaWriteWordQ.enq data
  return { s with
    writes.dmaWriteWordQ := dmaWriteWordQ
    writes.dmaWriteWordIn := s.writes.dmaWriteWordIn + 1 }

def splitDmaWriteReq (s : PcieCtrl) : Option PcieCtrl :=
  if s.writes.dmaSendWords = 0 then do
    let (req, dmaWriteReqQ) ← s.writes.dmaWriteReqQ.deq
    return { s with
      writes.dmaWriteReqQ := dmaWriteReqQ
      writes.dmaStartAddr := alignWord req.addr
      writes.dmaSendWords := req.words }
  else none

def relayFreeWriteTag (s : PcieCtrl) : Option PcieCtrl := do
  let (tag, freeWriteTagQ) ← s.tags.freeWriteTagQ.deq
  let freeWriteTagStageQ ← s.writes.freeWriteTagStageQ.enq tag
  return { s with
    tags.freeWriteTagQ := freeWriteTagQ, writes.freeWriteTagStageQ := freeWriteTagStageQ }

/-- One burst: take a tag, queue the page request, look the page up. -/
def splitDmaWriteReq2 (s : PcieCtrl) : Option PcieCtrl :=
  if s.writes.dmaSendWords > 0 then do
    let burst := splitWrite s.writes.dmaStartAddr s.writes.dmaSendWords
    let (tag, freeWriteTagStageQ) ← s.writes.freeWriteTagStageQ.deq
    let busyWriteTagQ ← s.writes.busyWriteTagQ.enq tag
    let dmaPageWriteReqQ ← s.writes.dmaPageWriteReqQ.enq
      { addr := (s.writes.dmaStartAddr.extractLsb 11 0).zeroExtend 32
        words := burst.words, tag }
    let bufidxRequestedWriteQ ← s.pages.bufidxRequestedWriteQ.enq true
    let configBuffer ← s.pages.configBuffer.readB (pageEntry s.writes.dmaStartAddr)
    return { s with
      writes.freeWriteTagStageQ := freeWriteTagStageQ
      writes.busyWriteTagQ := busyWriteTagQ
      writes.dmaPageWriteReqQ := dmaPageWriteReqQ
      writes.dmaSendWords := burst.wordsLeft
      writes.dmaStartAddr := burst.startAddr
      pages.bufidxRequestedWriteQ := bufidxRequestedWriteQ
      pages.configBuffer := configBuffer }
  else none

-----------------------------------------------------------------------------------------
-- The write TLP generator
-----------------------------------------------------------------------------------------

/-- The header beat for a page request with its bus address and first data word. -/
def writeHeaderOf (s : PcieCtrl) (req : DMAReq) (busAddr : BitVec 32) (data : DMAWord)
    : SendTLP :=
  writeHeaderTLP s.cfg_completer_id req.tag (busAddr + req.addr) req.words data

/-- Start a burst when all its data words have been supplied. -/
def generateHeaderTLP (s : PcieCtrl) : Option PcieCtrl := do
  let (req, dmaPageWriteReqQ) ← s.writes.dmaPageWriteReqQ.deq
  if s.writes.dataWordsRemain = 0
      ∧ s.writes.dmaWriteWordIn - s.writes.dmaWriteWordOut ≥ req.words then do
    let (busAddr, dmaWriteBufAddrQ) ← s.pages.dmaWriteBufAddrQ.deq
    let (data, dmaWriteWordQ) ← s.writes.dmaWriteWordQ.deq
    let sendTLPQ ← s.tx.sendTLPQ.enq (s.writeHeaderOf req busAddr data)
    return { s with
      writes.dmaPageWriteReqQ := dmaPageWriteReqQ
      writes.dmaWriteWordQ := dmaWriteWordQ
      writes.dmaWriteBuf := data >>> 32
      writes.dmaWriteWordOut := s.writes.dmaWriteWordOut + req.words
      writes.dataWordsRemain := req.words
      pages.dmaWriteBufAddrQ := dmaWriteBufAddrQ
      tx.sendTLPQ := sendTLPQ }
  else none

/-- The carry register completed with the first DW of the next word. -/
def nextBeatData (dmaWriteBuf d : DMAWord) : DMAWord :=
  dmaWriteBuf ||| ((d.truncate 32 : BitVec 32).zeroExtend 128 <<< (128 - 32))

/-- The next payload beat; the last one carries the three DWs left in the carry register and
returns the write tag.
-/
def generateDataTLP (s : PcieCtrl) : Option PcieCtrl :=
  if s.writes.dataWordsRemain > 0 then
    if s.writes.dataWordsRemain > 1 then do
      let (d, dmaWriteWordQ) ← s.writes.dmaWriteWordQ.deq
      let sendTLPQ ← s.tx.sendTLPQ.enq
        (writeDataTLP (nextBeatData s.writes.dmaWriteBuf d) 0xffff#16 0#1)
      return { s with
        writes.dmaWriteWordQ := dmaWriteWordQ
        writes.dmaWriteBuf := d >>> 32
        writes.dataWordsRemain := s.writes.dataWordsRemain - 1
        tx.sendTLPQ := sendTLPQ }
    else do
      let (tag, busyWriteTagQ) ← s.writes.busyWriteTagQ.deq
      let freeWriteTagQ ← s.tags.freeWriteTagQ.enq tag
      let sendTLPQ ← s.tx.sendTLPQ.enq (writeDataTLP s.writes.dmaWriteBuf 0x0fff#16 1#1)
      return { s with
        writes.busyWriteTagQ := busyWriteTagQ
        writes.dataWordsRemain := s.writes.dataWordsRemain - 1
        tags.freeWriteTagQ := freeWriteTagQ
        tx.sendTLPQ := sendTLPQ }
  else none

-----------------------------------------------------------------------------------------
-- Transmit
-----------------------------------------------------------------------------------------

/-- Single-beat TLPs leave the merge tree only between write bursts. -/
def relayTLPm (s : PcieCtrl) : Option PcieCtrl :=
  if s.writes.dataWordsRemain = 0 then do
    let (tlp, sendTLPm) ← s.tx.sendTLPm.deq
    let sendTLPQ ← s.tx.sendTLPQ.enq tlp
    return { s with tx.sendTLPm := sendTLPm, tx.sendTLPQ := sendTLPQ }
  else none

/-- The beat passed to `sendData`, `sendKeep` and `sendLast`. -/
def relayTLP (s : PcieCtrl) : Option (SendTLP × PcieCtrl) := do
  let (tlp, sendTLPQ) ← s.tx.sendTLPQ.deq
  return (tlp, { s with tx.sendTLPQ := sendTLPQ })

def relayUserSendTLP (s : PcieCtrl) : Option PcieCtrl := do
  let (tlp, userSendTLPQ) ← s.tx.userSendTLPQ.deq
  let sendTLPm ← s.tx.sendTLPm.enq 8 5 tlp
  return { s with tx.userSendTLPQ := userSendTLPQ, tx.sendTLPm := sendTLPm }

/-- The completion the user sends for a read it took. -/
def userCompletion (s : PcieCtrl) (ioreq : IOReadReq) (data : BitVec 32) : SendTLP :=
  completionTLP s.cfg_completer_id ioreq.requesterID ioreq.tag ioreq.tc ioreq.td ioreq.ep
    ioreq.attr ((ioreq.addr + io_userspace_offset).truncate 7) data

/-- Method `dataSend`. -/
def dataSend (s : PcieCtrl) (ioreq : IOReadReq) (data : BitVec 32) : Option PcieCtrl := do
  let userSendTLPQ ← s.tx.userSendTLPQ.enq (s.userCompletion ioreq data)
  return { s with tx.userSendTLPQ := userSendTLPQ }

/-- A rule inside the merge tree. -/
def sendTLPmRule (rule : MergeRule) (s : PcieCtrl) : Option PcieCtrl := do
  let sendTLPm ← s.tx.sendTLPm.fire rule
  return { s with tx.sendTLPm := sendTLPm }

-----------------------------------------------------------------------------------------
-- What a firing does
-----------------------------------------------------------------------------------------

section Cases

variable {s s' : PcieCtrl}

theorem dmaWriteReq_cases {addr : BitVec 32} {words : BitVec 10}
    (fires : s.dmaWriteReq addr words = some s')
    : ∃ dmaWriteReqQ,
        dmaWriteReqQ.items = s.writes.dmaWriteReqQ.items ++ [{ addr, words, tag := 0 }]
        ∧ s' = { s with writes.dmaWriteReqQ := dmaWriteReqQ } := by
  simp only [dmaWriteReq, Option.bind_eq_bind, Option.pure_def, Fifo.bind_enq_eq_some,
    Option.some.injEq] at fires
  obtain ⟨reqQ, _, put, rfl⟩ := fires
  exact ⟨reqQ, put, rfl⟩

theorem dmaWriteData_cases {data : DMAWord} (fires : s.dmaWriteData data = some s')
    : ∃ dmaWriteWordQ,
        dmaWriteWordQ.items = s.writes.dmaWriteWordQ.items ++ [data]
        ∧ s' = { s with
            writes.dmaWriteWordQ := dmaWriteWordQ
            writes.dmaWriteWordIn := s.writes.dmaWriteWordIn + 1 } := by
  simp only [dmaWriteData, Option.bind_eq_bind, Option.pure_def, Fifo.bind_enq_eq_some,
    Option.some.injEq] at fires
  obtain ⟨wordQ, _, put, rfl⟩ := fires
  exact ⟨wordQ, put, rfl⟩

/-- A write request becomes the current one when the last is split up. -/
theorem splitDmaWriteReq_cases (fires : s.splitDmaWriteReq = some s')
    : s.writes.dmaSendWords = 0
      ∧ ∃ req dmaWriteReqQ,
          s.writes.dmaWriteReqQ.items = req :: dmaWriteReqQ.items
          ∧ s' = { s with
              writes.dmaWriteReqQ := dmaWriteReqQ
              writes.dmaStartAddr := alignWord req.addr
              writes.dmaSendWords := req.words } := by
  simp only [splitDmaWriteReq, Option.bind_eq_bind, Option.pure_def] at fires
  split at fires
  next idle =>
    simp only [Fifo.bind_deq_eq_some, Option.some.injEq] at fires
    obtain ⟨req, reqQ, taken, rfl⟩ := fires
    exact ⟨idle, req, reqQ, taken, rfl⟩
  next => cases fires

theorem relayFreeWriteTag_cases (fires : s.relayFreeWriteTag = some s')
    : ∃ tag freeWriteTagQ freeWriteTagStageQ,
        s.tags.freeWriteTagQ.items = tag :: freeWriteTagQ.items
        ∧ freeWriteTagStageQ.items = s.writes.freeWriteTagStageQ.items ++ [tag]
        ∧ s' = { s with
            tags.freeWriteTagQ := freeWriteTagQ
            writes.freeWriteTagStageQ := freeWriteTagStageQ } := by
  simp only [relayFreeWriteTag, Option.bind_eq_bind, Option.pure_def, Fifo.bind_deq_eq_some,
    Fifo.bind_enq_eq_some, Option.some.injEq] at fires
  obtain ⟨tag, freeQ, taken, stageQ, _, put, rfl⟩ := fires
  exact ⟨tag, freeQ, stageQ, taken, put, rfl⟩

/-- A burst of a write request: one tag, one page request, one lookup. -/
theorem splitDmaWriteReq2_cases (fires : s.splitDmaWriteReq2 = some s')
    : s.writes.dmaSendWords > 0
      ∧ ∃ tag freeWriteTagStageQ busyWriteTagQ dmaPageWriteReqQ bufidxRequestedWriteQ respB,
          s.writes.freeWriteTagStageQ.items = tag :: freeWriteTagStageQ.items
          ∧ busyWriteTagQ.items = s.writes.busyWriteTagQ.items ++ [tag]
          ∧ dmaPageWriteReqQ.items = s.writes.dmaPageWriteReqQ.items
              ++ [{ addr := (s.writes.dmaStartAddr.extractLsb 11 0).zeroExtend 32
                    words := (splitWrite s.writes.dmaStartAddr s.writes.dmaSendWords).words
                    tag }]
          ∧ bufidxRequestedWriteQ.items = s.pages.bufidxRequestedWriteQ.items ++ [true]
          ∧ respB.items = s.pages.configBuffer.respB.items
              ++ [s.pages.configBuffer.mem (pageEntry s.writes.dmaStartAddr)]
          ∧ s' = { s with
              writes.freeWriteTagStageQ := freeWriteTagStageQ
              writes.busyWriteTagQ := busyWriteTagQ
              writes.dmaPageWriteReqQ := dmaPageWriteReqQ
              writes.dmaSendWords :=
                (splitWrite s.writes.dmaStartAddr s.writes.dmaSendWords).wordsLeft
              writes.dmaStartAddr :=
                (splitWrite s.writes.dmaStartAddr s.writes.dmaSendWords).startAddr
              pages.bufidxRequestedWriteQ := bufidxRequestedWriteQ
              pages.configBuffer.respB := respB } := by
  simp only [splitDmaWriteReq2, Option.bind_eq_bind, Option.pure_def] at fires
  split at fires
  next busy =>
    simp only [Fifo.bind_deq_eq_some, Fifo.bind_enq_eq_some, Bram2.bind_readB_eq_some,
      Option.some.injEq] at fires
    obtain ⟨tag, stageQ, taken, busyQ, _, marked, pageQ, _, put, bufidxQ, _, asked, respB, _,
      resp, rfl⟩ := fires
    exact ⟨busy, tag, stageQ, busyQ, pageQ, bufidxQ, respB, taken, marked, put, asked, resp,
      rfl⟩
  next => cases fires

/-- A burst starts only when the words supplied beyond those claimed cover it. -/
theorem generateHeaderTLP_cases (fires : s.generateHeaderTLP = some s')
    : s.writes.dataWordsRemain = 0
      ∧ ∃ req dmaPageWriteReqQ busAddr dmaWriteBufAddrQ data dmaWriteWordQ sendTLPQ,
          s.writes.dmaWriteWordIn - s.writes.dmaWriteWordOut ≥ req.words
          ∧ s.writes.dmaPageWriteReqQ.items = req :: dmaPageWriteReqQ.items
          ∧ s.pages.dmaWriteBufAddrQ.items = busAddr :: dmaWriteBufAddrQ.items
          ∧ s.writes.dmaWriteWordQ.items = data :: dmaWriteWordQ.items
          ∧ sendTLPQ.items = s.tx.sendTLPQ.items ++ [s.writeHeaderOf req busAddr data]
          ∧ s' = { s with
              writes.dmaPageWriteReqQ := dmaPageWriteReqQ
              writes.dmaWriteWordQ := dmaWriteWordQ
              writes.dmaWriteBuf := data >>> 32
              writes.dmaWriteWordOut := s.writes.dmaWriteWordOut + req.words
              writes.dataWordsRemain := req.words
              pages.dmaWriteBufAddrQ := dmaWriteBufAddrQ
              tx.sendTLPQ := sendTLPQ } := by
  simp only [generateHeaderTLP, Option.bind_eq_bind, Option.pure_def,
    Fifo.bind_deq_eq_some] at fires
  obtain ⟨req, pageQ, taken, fires⟩ := fires
  split at fires
  next ready =>
    simp only [Fifo.bind_deq_eq_some, Fifo.bind_enq_eq_some, Option.some.injEq] at fires
    obtain ⟨busAddr, addrQ, takenAddr, data, wordQ, takenWord, sendQ, _, put, rfl⟩ := fires
    exact ⟨ready.1, req, pageQ, busAddr, addrQ, data, wordQ, sendQ, ready.2, taken, takenAddr,
      takenWord, put, rfl⟩
  next => cases fires

/-- A payload beat of the burst under way, a middle one or the last. -/
theorem generateDataTLP_cases (fires : s.generateDataTLP = some s')
    : (s.writes.dataWordsRemain > 1
        ∧ ∃ d dmaWriteWordQ sendTLPQ,
            s.writes.dmaWriteWordQ.items = d :: dmaWriteWordQ.items
            ∧ sendTLPQ.items = s.tx.sendTLPQ.items
                ++ [writeDataTLP (nextBeatData s.writes.dmaWriteBuf d) 0xffff#16 0#1]
            ∧ s' = { s with
                writes.dmaWriteWordQ := dmaWriteWordQ
                writes.dmaWriteBuf := d >>> 32
                writes.dataWordsRemain := s.writes.dataWordsRemain - 1
                tx.sendTLPQ := sendTLPQ })
      ∨ (s.writes.dataWordsRemain > 0
        ∧ ¬s.writes.dataWordsRemain > 1
        ∧ ∃ tag busyWriteTagQ freeWriteTagQ sendTLPQ,
            s.writes.busyWriteTagQ.items = tag :: busyWriteTagQ.items
            ∧ freeWriteTagQ.items = s.tags.freeWriteTagQ.items ++ [tag]
            ∧ sendTLPQ.items = s.tx.sendTLPQ.items
                ++ [writeDataTLP s.writes.dmaWriteBuf 0x0fff#16 1#1]
            ∧ s' = { s with
                writes.busyWriteTagQ := busyWriteTagQ
                writes.dataWordsRemain := s.writes.dataWordsRemain - 1
                tags.freeWriteTagQ := freeWriteTagQ
                tx.sendTLPQ := sendTLPQ }) := by
  simp only [generateDataTLP, Option.bind_eq_bind, Option.pure_def] at fires
  split_ifs at fires with busy more
  · simp only [Fifo.bind_deq_eq_some, Fifo.bind_enq_eq_some, Option.some.injEq] at fires
    obtain ⟨d, wordQ, taken, sendQ, _, put, rfl⟩ := fires
    exact .inl ⟨more, d, wordQ, sendQ, taken, put, rfl⟩
  · simp only [Fifo.bind_deq_eq_some, Fifo.bind_enq_eq_some, Option.some.injEq] at fires
    obtain ⟨tag, busyQ, taken, freeQ, _, freed, sendQ, _, put, rfl⟩ := fires
    exact .inr ⟨busy, more, tag, busyQ, freeQ, sendQ, taken, freed, put, rfl⟩

/-- A single-beat TLP moves from the merge tree to the send queue between bursts. -/
theorem relayTLPm_cases (fires : s.relayTLPm = some s')
    : s.writes.dataWordsRemain = 0
      ∧ ∃ tlp sendTLPm sendTLPQ,
          s.tx.sendTLPm.deq = some (tlp, sendTLPm)
          ∧ sendTLPQ.items = s.tx.sendTLPQ.items ++ [tlp]
          ∧ s' = { s with tx.sendTLPm := sendTLPm, tx.sendTLPQ := sendTLPQ } := by
  simp only [relayTLPm, Option.bind_eq_bind, Option.pure_def] at fires
  split at fires
  next idle =>
    obtain ⟨⟨tlp, sendTLPm⟩, taken, fires⟩ := Option.bind_eq_some_iff.mp fires
    simp only [Fifo.bind_enq_eq_some, Option.some.injEq] at fires
    obtain ⟨sendQ, _, put, rfl⟩ := fires
    exact ⟨idle, tlp, sendTLPm, sendQ, taken, put, rfl⟩
  next => cases fires

end Cases

end PcieCtrl

end BluespecPcie

import BluespecPcie.PcieCtrl.State

/-! Rules of the DMA read path: splitting, burst bookkeeping, retirement and flush. -/

namespace BluespecPcie

open Bluespec

/-- What a splitter does with the rest of a request: the words of the next burst, the words
left after it, and where they start.
-/
structure Split where
  words : BitVec 10
  wordsLeft : BitVec 10
  startAddr : BitVec 32
deriving DecidableEq

/-- The 128-bit words from `startAddr` to the end of its 4 KB page. -/
def internalWords (startAddr : BitVec 32) : BitVec 10 :=
  let bufidx := startAddr >>> 12
  let nextPage := bufidx + 1
  let internal := (nextPage <<< 12) - startAddr
  (internal >>> 4).truncate 10

/-- The start of the page after `startAddr`'s. -/
def nextPageStart (startAddr : BitVec 32) : BitVec 32 := (startAddr >>> 12 + 1) <<< 12

/-- One burst of `splitDmaReadReq2`. -/
def splitRead (dmaReadStartAddr : BitVec 32) (dmaReadWords : BitVec 10) : Split :=
  let toread := if dmaReadWords > dma_max_words then dma_max_words else dmaReadWords
  if internalWords dmaReadStartAddr > toread then
    { words := toread
      wordsLeft := dmaReadWords - toread
      startAddr := dmaReadStartAddr + (toread.zeroExtend 32 <<< 4) }
  else
    { words := internalWords dmaReadStartAddr
      wordsLeft := dmaReadWords - internalWords dmaReadStartAddr
      startAddr := nextPageStart dmaReadStartAddr }

/-- The configuration buffer entry that holds the bus address of `startAddr`'s page. -/
def pageEntry (startAddr : BitVec 32) : BitVec 12 :=
  BitVec.ofNat 12 (dma_buf_offset / 4) + (startAddr >>> 12).truncate 12

/-- `{truncate(addr>>4), 4'b0000}`. -/
def alignWord (addr : BitVec 32) : BitVec 32 := (addr >>> 4).truncate 28 ++ 0#4

/-- The current burst is on the last word of its tag. -/
def TagWordsLeft.finished (t : TagWordsLeft) : Prop :=
  t.words ≤ 4 ∧ t.off + t.ioff + 4 ≥ t.req

instance (t : TagWordsLeft) : Decidable t.finished :=
  inferInstanceAs (Decidable (_ ∧ _))

namespace PcieCtrl

def insertFreeTag (s : PcieCtrl) : Option PcieCtrl :=
  if s.tags.freeTagCnt ≠ 128 then do
    let freeReadTagQ ← s.tags.freeReadTagQ.enq s.tags.freeTagCnt
    let freeWriteTagQ ← s.tags.freeWriteTagQ.enq (s.tags.freeTagCnt + 128)
    return { s with
      tags.freeTagCnt := s.tags.freeTagCnt + 1
      tags.freeReadTagQ := freeReadTagQ
      tags.freeWriteTagQ := freeWriteTagQ }
  else none

def relayFreeReadTag (s : PcieCtrl) : Option PcieCtrl := do
  let (tag, freeReadTagFQ) ← s.tags.freeReadTagFQ.deq
  let freeReadTagQ ← s.tags.freeReadTagQ.enq tag
  return { s with tags.freeReadTagFQ := freeReadTagFQ, tags.freeReadTagQ := freeReadTagQ }

-----------------------------------------------------------------------------------------
-- Page table lookups, shared with the write path
-----------------------------------------------------------------------------------------

def relayBufIdxRead (s : PcieCtrl) : Option PcieCtrl := do
  let (busAddr, configBuffer) ← s.pages.configBuffer.getB
  let (write, bufidxRequestedWriteQ) ← s.pages.bufidxRequestedWriteQ.deq
  if write then do
    let dmaWriteBufAddrQ ← s.pages.dmaWriteBufAddrQ.enq busAddr
    return { s with
      pages.configBuffer := configBuffer
      pages.bufidxRequestedWriteQ := bufidxRequestedWriteQ
      pages.dmaWriteBufAddrQ := dmaWriteBufAddrQ }
  else do
    let dmaReadBufAddrQ ← s.pages.dmaReadBufAddrQ.enq busAddr
    return { s with
      pages.configBuffer := configBuffer
      pages.bufidxRequestedWriteQ := bufidxRequestedWriteQ
      pages.dmaReadBufAddrQ := dmaReadBufAddrQ }

-----------------------------------------------------------------------------------------
-- Requests
-----------------------------------------------------------------------------------------

/-- Method `dmaReadReq`; the source leaves the request's tag unspecified and unused. -/
def dmaReadReq (s : PcieCtrl) (addr : BitVec 32) (words : BitVec 10) : Option PcieCtrl := do
  let dmaReadReqQ ← s.reads.dmaReadReqQ.enq { addr, words, tag := 0 }
  return { s with reads.dmaReadReqQ := dmaReadReqQ }

def splitDmaReadReq (s : PcieCtrl) : Option PcieCtrl :=
  if s.reads.dmaReadWords = 0 then do
    let (req, dmaReadReqQ) ← s.reads.dmaReadReqQ.deq
    return { s with
      reads.dmaReadReqQ := dmaReadReqQ
      reads.dmaReadStartAddr := alignWord req.addr
      reads.dmaReadWords := req.words }
  else none

/-- One burst: take a tag, queue the page request, open the tag's entry, look the page up. -/
def splitDmaReadReq2 (s : PcieCtrl) : Option PcieCtrl :=
  if s.reads.dmaReadWords > 0 then do
    let burst := splitRead s.reads.dmaReadStartAddr s.reads.dmaReadWords
    let (tag, freeReadTagQ) ← s.tags.freeReadTagQ.deq
    let dmaPageReadReqQ ← s.reads.dmaPageReadReqQ.enq
      { addr := (s.reads.dmaReadStartAddr.extractLsb 11 0).zeroExtend 32
        words := burst.words, tag }
    let bufidxRequestedWriteQ ← s.pages.bufidxRequestedWriteQ.enq false
    let configBuffer ← s.pages.configBuffer.readB (pageEntry s.reads.dmaReadStartAddr)
    return { s with
      tags.freeReadTagQ := freeReadTagQ
      reads.dmaPageReadReqQ := dmaPageReadReqQ
      reads.dmaReadWords := burst.wordsLeft
      reads.dmaReadStartAddr := burst.startAddr
      bursts.tagMap := s.bursts.tagMap.write tag (burst.words <<< 2, 0)
      pages.bufidxRequestedWriteQ := bufidxRequestedWriteQ
      pages.configBuffer := configBuffer }
  else none

/-- The read request TLP for a page request with its bus address. -/
def readRequestOf (s : PcieCtrl) (req : DMAReq) (busAddr : BitVec 32) : SendTLP :=
  readRequestTLP s.cfg_completer_id req.tag (busAddr + req.addr) req.words

def generateDmaReadTLP (s : PcieCtrl) : Option PcieCtrl := do
  let (req, dmaPageReadReqQ) ← s.reads.dmaPageReadReqQ.deq
  let (busAddr, dmaReadBufAddrQ) ← s.pages.dmaReadBufAddrQ.deq
  let dmaReadTagOrderQ ← s.order.dmaReadTagOrderQ.enq req.tag
  let sendTLPm ← s.tx.sendTLPm.enq 8 3 (s.readRequestOf req busAddr)
  return { s with
    reads.dmaPageReadReqQ := dmaPageReadReqQ
    pages.dmaReadBufAddrQ := dmaReadBufAddrQ
    order.dmaReadTagOrderQ := dmaReadTagOrderQ
    tx.sendTLPm := sendTLPm }

-----------------------------------------------------------------------------------------
-- Arriving bursts
-----------------------------------------------------------------------------------------

def relayReadBurst (s : PcieCtrl) : Option PcieCtrl := do
  let (burst, readBurstQ) ← s.bursts.readBurstQ.deq
  let readBurst2Q ← s.bursts.readBurst2Q.enq burst
  return { s with bursts.readBurstQ := readBurstQ, bursts.readBurst2Q := readBurst2Q }

/-- Look up the tag's counts, unless an update of the same tag is still under way. -/
def updateReadBurst1 (s : PcieCtrl) : Option PcieCtrl :=
  if s.tags.freeTagCnt = 128 then do
    let burst ← s.bursts.readBurst2Q.first
    if burst.1 ∉ s.bursts.readCompletionsb.items then do
      let (_, readBurst2Q) ← s.bursts.readBurst2Q.deq
      let tagMap ← s.bursts.tagMap.readB burst.1
      let readCompletionsb ← s.bursts.readCompletionsb.enq burst.1
      let burstUpdReqQ ← s.bursts.burstUpdReqQ.enq burst
      return { s with
        bursts.readBurst2Q := readBurst2Q
        bursts.tagMap := tagMap
        bursts.readCompletionsb := readCompletionsb
        bursts.burstUpdReqQ := burstUpdReqQ }
    else return s
  else none

def getTagMapReadA (s : PcieCtrl) : Option PcieCtrl := do
  let (v, tagMap) ← s.bursts.tagMap.getB
  let tagMapReadAQ ← s.bursts.tagMapReadAQ.enq v
  return { s with bursts.tagMap := tagMap, bursts.tagMapReadAQ := tagMapReadAQ }

/-- `newdone` and `newwords`: the tag's count after the burst, capped at its total, and the
DWs of the burst that fit under the total.
-/
def burstCounts (req done words : BitVec 10) : BitVec 10 × BitVec 10 :=
  if done + words ≥ req then (req, req - done) else (done + words, words)

def updateReadBurst2 (s : PcieCtrl) : Option PcieCtrl :=
  if s.bursts.tagWordsLeft.words = 0 ∧ s.tags.freeTagCnt = 128 then do
    let ((req, done), tagMapReadAQ) ← s.bursts.tagMapReadAQ.deq
    let ((tag, words), burstUpdReqQ) ← s.bursts.burstUpdReqQ.deq
    let (newdone, newwords) := burstCounts req done words
    let (_, readCompletionsb) ← s.bursts.readCompletionsb.deq
    return { s with
      bursts.tagMapReadAQ := tagMapReadAQ
      bursts.burstUpdReqQ := burstUpdReqQ
      bursts.readCompletionsb := readCompletionsb
      bursts.tagWordsLeft := { tag, off := done, words := newwords, ioff := 0, req }
      bursts.tagMap := s.bursts.tagMap.write tag (req, newdone) }
  else none

def relayDmaReadrQ (s : PcieCtrl) : Option PcieCtrl := do
  let (w, dmaReadWordQ) ← s.bursts.dmaReadWordQ.deq
  let dmaReadWordRQ ← s.bursts.dmaReadWordRQ.enq w
  return { s with bursts.dmaReadWordQ := dmaReadWordQ, bursts.dmaReadWordRQ := dmaReadWordRQ }

/-- The slot a word of the burst goes to: `(tag<<3)|((off+ioff)>>2)`. -/
def writeoff (t : TagWordsLeft) : BitVec 10 :=
  (t.tag.zeroExtend 10 <<< 3) ||| ((t.off + t.ioff) >>> 2)

/-- One word of the current burst goes to its slot; the last word of a tag reports it done. -/
def writeReadBuffer (s : PcieCtrl) : Option PcieCtrl :=
  let t := s.bursts.tagWordsLeft
  if t.words > 0 then do
    let readDoneTagQ ← (if t.finished
      then s.bursts.readDoneTagQ.enq (t.tag, t.off + t.ioff + 4)
      else some s.bursts.readDoneTagQ)
    let (word, dmaReadWordRQ) ← s.bursts.dmaReadWordRQ.deq
    return { s with
      bursts.readDoneTagQ := readDoneTagQ
      bursts.tagWordsLeft := { t with
        words := if t.finished then 0 else t.words - 4
        ioff := t.ioff + 4 }
      bursts.dmaReadWordRQ := dmaReadWordRQ
      reorder.readReorder := s.reorder.readReorder.write (writeoff t) word.word }
  else none

-----------------------------------------------------------------------------------------
-- Retirement in request order
-----------------------------------------------------------------------------------------

def applyDoneMap (s : PcieCtrl) : Option PcieCtrl := do
  let (d, readDoneTagQ) ← s.bursts.readDoneTagQ.deq
  let doneShifter ← s.order.doneShifter.rotateByteBy 1 (d.1.truncate 7)
  return { s with
    bursts.readDoneTagQ := readDoneTagQ
    order.doneMap := s.order.doneMap.write d.1 d
    order.doneShifter := doneShifter }

def procDoneShift (s : PcieCtrl) : Option PcieCtrl := do
  let (v, doneShifter) ← s.order.doneShifter.getVal
  return { s with
    order.doneShifter := doneShifter, order.doneTagMap := s.order.doneTagMap ^^^ v }

def shiftOrder (s : PcieCtrl) : Option PcieCtrl := do
  let (tag, dmaReadTagOrderQ) ← s.order.dmaReadTagOrderQ.deq
  let orderShifter ← s.order.orderShifter.rotateByteBy 1 (tag.truncate 7)
  let orderTagBypassQ1 ← s.order.orderTagBypassQ1.enq tag
  return { s with
    order.dmaReadTagOrderQ := dmaReadTagOrderQ
    order.orderShifter := orderShifter
    order.orderTagBypassQ1 := orderTagBypassQ1 }

def forwardShiftOrderTagBypass (s : PcieCtrl) : Option PcieCtrl := do
  let (tag, orderTagBypassQ1) ← s.order.orderTagBypassQ1.deq
  let orderTagBypassQ2 ← s.order.orderTagBypassQ2.enq tag
  return { s with
    order.orderTagBypassQ1 := orderTagBypassQ1, order.orderTagBypassQ2 := orderTagBypassQ2 }

def forwardShifted (s : PcieCtrl) : Option PcieCtrl := do
  let (v, orderShifter) ← s.order.orderShifter.getVal
  let orderShiftedQ ← s.order.orderShiftedQ.enq v
  return { s with order.orderShifter := orderShifter, order.orderShiftedQ := orderShiftedQ }

/-- Rule `doStage` of `doneShifter`. -/
def doneShifterStage (i : Nat) (s : PcieCtrl) : Option PcieCtrl := do
  let doneShifter ← s.order.doneShifter.doStage leftShiftBits i
  return { s with order.doneShifter := doneShifter }

/-- Rule `doStage` of `orderShifter`. -/
def orderShifterStage (i : Nat) (s : PcieCtrl) : Option PcieCtrl := do
  let orderShifter ← s.order.orderShifter.doStage leftShiftBits i
  return { s with order.orderShifter := orderShifter }

/-- The tag with the one-hot map `ot` is received but not retired. -/
def isDone (s : PcieCtrl) (ot : BitVec 128) : Bool :=
  (ot &&& (s.order.orderTagMap ^^^ s.order.doneTagMap)) != 0

/-- `orderTagMap <= orderTagMap ^ ot` and the tag's move to `doneReorderedTagQ`. -/
def retire (s : PcieCtrl) (ot : BitVec 128) : Option PcieCtrl := do
  let (tag, orderTagBypassQ2) ← s.order.orderTagBypassQ2.deq
  let doneReorderedTagQ ← s.order.doneReorderedTagQ.enq tag
  return { s with
    order.orderTagMap := s.order.orderTagMap ^^^ ot
    order.orderTagBypassQ2 := orderTagBypassQ2
    order.doneReorderedTagQ := doneReorderedTagQ }

/-- Retire the next tag in request order once it is done; keep it in `curOrderTag` till then. -/
def compareOrder (s : PcieCtrl) : Option PcieCtrl :=
  match s.order.curOrderTag with
  | some ot =>
      if s.isDone ot then do
        let s' ← s.retire ot
        return { s' with order.curOrderTag := none }
      else some s
  | none => do
      let (v, orderShiftedQ) ← s.order.orderShiftedQ.deq
      if s.isDone v then do
        let s' ← s.retire v
        return { s' with order.orderShiftedQ := orderShiftedQ }
      else return { s with order.orderShiftedQ := orderShiftedQ, order.curOrderTag := some v }

def reqDoneTag (s : PcieCtrl) : Option PcieCtrl := do
  let (tag, doneReorderedTagQ) ← s.order.doneReorderedTagQ.deq
  let doneMap ← s.order.doneMap.readB tag
  return { s with order.doneReorderedTagQ := doneReorderedTagQ, order.doneMap := doneMap }

def forwardDoneTag (s : PcieCtrl) : Option PcieCtrl := do
  let (d, doneMap) ← s.order.doneMap.getB
  let orderedReadDoneTagQ ← s.order.orderedReadDoneTagQ.enq d
  return { s with order.doneMap := doneMap, order.orderedReadDoneTagQ := orderedReadDoneTagQ }

-----------------------------------------------------------------------------------------
-- Flush of retired tags
-----------------------------------------------------------------------------------------

/-- Words left after one more was read: `wleft > 4 ? wleft - 4 : 0`. -/
def flushLeft (wleft : BitVec 10) : BitVec 10 := if wleft > 4 then wleft - 4 else 0

/-- The slot the flush under way reads next: `(tag<<3)|((words-wleft)>>2)`. -/
def flushSlot (t : ReadFlushTag) : BitVec 10 :=
  (t.tag.zeroExtend 10 <<< 3) ||| ((t.req - t.curword) >>> 2)

/-- Start on the next retired tag if the output has room, and return its tag to the pool;
or read the next word of the tag under way.
-/
def flushReadTag (s : PcieCtrl) : Option PcieCtrl :=
  let t := s.reorder.readFlushTag
  if t.curword = 0 then
    if s.reorder.dmaReadOutCntUp - s.reorder.dmaReadOutCntDn < 56 then do
      let ((tag, words), orderedReadDoneTagQ) ← s.order.orderedReadDoneTagQ.deq
      let readReorder ← s.reorder.readReorder.readB (tag.zeroExtend 10 <<< 3)
      let freeReadTagFQ ← s.tags.freeReadTagFQ.enq tag
      return { s with
        order.orderedReadDoneTagQ := orderedReadDoneTagQ
        reorder.readReorder := readReorder
        reorder.readFlushTag := { tag, req := words, curword := flushLeft words }
        reorder.dmaReadOutCntUp := s.reorder.dmaReadOutCntUp + 1
        tags.freeReadTagFQ := freeReadTagFQ }
    else some s
  else do
    let readReorder ← s.reorder.readReorder.readB (flushSlot t)
    return { s with
      reorder.readReorder := readReorder
      reorder.readFlushTag := { t with curword := flushLeft t.curword }
      reorder.dmaReadOutCntUp := s.reorder.dmaReadOutCntUp + 1 }

def flushReadOrdered (s : PcieCtrl) : Option PcieCtrl := do
  let (v, readReorder) ← s.reorder.readReorder.getB
  let dmaReadOutQ ← s.reorder.dmaReadOutQ.enq v
  return { s with reorder.readReorder := readReorder, reorder.dmaReadOutQ := dmaReadOutQ }

def relayFlushReadOrdered (s : PcieCtrl) : Option PcieCtrl := do
  let (v, dmaReadOutQ) ← s.reorder.dmaReadOutQ.deq
  let dmaReadOutRQ ← s.reorder.dmaReadOutRQ.enq v
  return { s with reorder.dmaReadOutQ := dmaReadOutQ, reorder.dmaReadOutRQ := dmaReadOutRQ }

/-- Method `dmaReadWord`. -/
def dmaReadWord (s : PcieCtrl) : Option (DMAWord × PcieCtrl) := do
  let (v, dmaReadOutRQ) ← s.reorder.dmaReadOutRQ.deq
  return (v, { s with
    reorder.dmaReadOutRQ := dmaReadOutRQ
    reorder.dmaReadOutCntDn := s.reorder.dmaReadOutCntDn + 1 })

-----------------------------------------------------------------------------------------
-- What a firing does
-----------------------------------------------------------------------------------------

section Cases

variable {s s' : PcieCtrl}

theorem insertFreeTag_cases (fires : s.insertFreeTag = some s')
    : s.tags.freeTagCnt ≠ 128
      ∧ ∃ freeReadTagQ freeWriteTagQ,
          freeReadTagQ.items = s.tags.freeReadTagQ.items ++ [s.tags.freeTagCnt]
          ∧ freeWriteTagQ.items = s.tags.freeWriteTagQ.items ++ [s.tags.freeTagCnt + 128]
          ∧ s' = { s with
              tags.freeTagCnt := s.tags.freeTagCnt + 1
              tags.freeReadTagQ := freeReadTagQ
              tags.freeWriteTagQ := freeWriteTagQ } := by
  simp only [insertFreeTag, Option.bind_eq_bind, Option.pure_def] at fires
  split at fires
  next more =>
    simp only [Fifo.bind_enq_eq_some, Option.some.injEq] at fires
    obtain ⟨readQ, _, put, writeQ, _, putWrite, rfl⟩ := fires
    exact ⟨more, readQ, writeQ, put, putWrite, rfl⟩
  next => cases fires

/-- A page table response goes to the direction its lookup was made for. -/
theorem relayBufIdxRead_cases (fires : s.relayBufIdxRead = some s')
    : ∃ busAddr respB write bufidxRequestedWriteQ,
        s.pages.configBuffer.respB.items = busAddr :: respB.items
        ∧ s.pages.bufidxRequestedWriteQ.items = write :: bufidxRequestedWriteQ.items
        ∧ ((write = true
              ∧ ∃ dmaWriteBufAddrQ,
                  dmaWriteBufAddrQ.items = s.pages.dmaWriteBufAddrQ.items ++ [busAddr]
                  ∧ s' = { s with
                      pages.configBuffer.respB := respB
                      pages.bufidxRequestedWriteQ := bufidxRequestedWriteQ
                      pages.dmaWriteBufAddrQ := dmaWriteBufAddrQ })
          ∨ (write = false
              ∧ ∃ dmaReadBufAddrQ,
                  dmaReadBufAddrQ.items = s.pages.dmaReadBufAddrQ.items ++ [busAddr]
                  ∧ s' = { s with
                      pages.configBuffer.respB := respB
                      pages.bufidxRequestedWriteQ := bufidxRequestedWriteQ
                      pages.dmaReadBufAddrQ := dmaReadBufAddrQ })) := by
  simp only [relayBufIdxRead, Option.bind_eq_bind, Option.pure_def, Bram2.bind_getB_eq_some,
    Fifo.bind_deq_eq_some] at fires
  obtain ⟨busAddr, respB, resp, write, bufidxQ, taken, fires⟩ := fires
  refine ⟨busAddr, respB, write, bufidxQ, resp, taken, ?_⟩
  cases write with
  | true =>
      simp only [if_true, Fifo.bind_enq_eq_some, Option.some.injEq] at fires
      obtain ⟨addrQ, _, put, rfl⟩ := fires
      exact .inl ⟨rfl, addrQ, put, rfl⟩
  | false =>
      simp only [Bool.false_eq_true, if_false, Fifo.bind_enq_eq_some,
        Option.some.injEq] at fires
      obtain ⟨addrQ, _, put, rfl⟩ := fires
      exact .inr ⟨rfl, addrQ, put, rfl⟩

/-- A burst of a read request: one tag, one page request, one lookup. -/
theorem splitDmaReadReq2_cases (fires : s.splitDmaReadReq2 = some s')
    : s.reads.dmaReadWords > 0
      ∧ ∃ tag freeReadTagQ dmaPageReadReqQ bufidxRequestedWriteQ respB,
          s.tags.freeReadTagQ.items = tag :: freeReadTagQ.items
          ∧ dmaPageReadReqQ.items = s.reads.dmaPageReadReqQ.items
              ++ [{ addr := (s.reads.dmaReadStartAddr.extractLsb 11 0).zeroExtend 32
                    words := (splitRead s.reads.dmaReadStartAddr s.reads.dmaReadWords).words
                    tag }]
          ∧ bufidxRequestedWriteQ.items = s.pages.bufidxRequestedWriteQ.items ++ [false]
          ∧ respB.items = s.pages.configBuffer.respB.items
              ++ [s.pages.configBuffer.mem (pageEntry s.reads.dmaReadStartAddr)]
          ∧ s' = { s with
              tags.freeReadTagQ := freeReadTagQ
              reads.dmaPageReadReqQ := dmaPageReadReqQ
              reads.dmaReadWords :=
                (splitRead s.reads.dmaReadStartAddr s.reads.dmaReadWords).wordsLeft
              reads.dmaReadStartAddr :=
                (splitRead s.reads.dmaReadStartAddr s.reads.dmaReadWords).startAddr
              bursts.tagMap := s.bursts.tagMap.write tag
                ((splitRead s.reads.dmaReadStartAddr s.reads.dmaReadWords).words <<< 2, 0)
              pages.bufidxRequestedWriteQ := bufidxRequestedWriteQ
              pages.configBuffer.respB := respB } := by
  simp only [splitDmaReadReq2, Option.bind_eq_bind, Option.pure_def] at fires
  split at fires
  next busy =>
    simp only [Fifo.bind_deq_eq_some, Fifo.bind_enq_eq_some, Bram2.bind_readB_eq_some,
      Option.some.injEq] at fires
    obtain ⟨tag, freeQ, taken, pageQ, _, put, bufidxQ, _, asked, respB, _, resp, rfl⟩ := fires
    exact ⟨busy, tag, freeQ, pageQ, bufidxQ, respB, taken, put, asked, resp, rfl⟩
  next => cases fires

/-- A read request TLP: the page request, its bus address, and its place in the order. -/
theorem generateDmaReadTLP_cases (fires : s.generateDmaReadTLP = some s')
    : ∃ req dmaPageReadReqQ busAddr dmaReadBufAddrQ dmaReadTagOrderQ sendTLPm,
        s.reads.dmaPageReadReqQ.items = req :: dmaPageReadReqQ.items
        ∧ s.pages.dmaReadBufAddrQ.items = busAddr :: dmaReadBufAddrQ.items
        ∧ dmaReadTagOrderQ.items = s.order.dmaReadTagOrderQ.items ++ [req.tag]
        ∧ s.tx.sendTLPm.enq 8 3 (s.readRequestOf req busAddr) = some sendTLPm
        ∧ s' = { s with
            reads.dmaPageReadReqQ := dmaPageReadReqQ
            pages.dmaReadBufAddrQ := dmaReadBufAddrQ
            order.dmaReadTagOrderQ := dmaReadTagOrderQ
            tx.sendTLPm := sendTLPm } := by
  simp only [generateDmaReadTLP, Option.bind_eq_bind, Option.pure_def,
    Fifo.bind_deq_eq_some, Fifo.bind_enq_eq_some] at fires
  obtain ⟨req, pageQ, taken, busAddr, addrQ, takenAddr, orderQ, _, put, fires⟩ := fires
  simp only [Option.bind_eq_some_iff, Option.some.injEq] at fires
  obtain ⟨sendTLPm, sent, rfl⟩ := fires
  exact ⟨req, pageQ, busAddr, addrQ, orderQ, sendTLPm, taken, takenAddr, put, sent, rfl⟩

/-- The lookup of a burst's tag waits while that tag is on the scoreboard. -/
theorem updateReadBurst1_cases (fires : s.updateReadBurst1 = some s')
    : s.tags.freeTagCnt = 128
      ∧ (s' = s
        ∨ ∃ burst readBurst2Q respB readCompletionsb burstUpdReqQ,
            s.bursts.readBurst2Q.items = burst :: readBurst2Q.items
            ∧ burst.1 ∉ s.bursts.readCompletionsb.items
            ∧ respB.items = s.bursts.tagMap.respB.items ++ [s.bursts.tagMap.mem burst.1]
            ∧ readCompletionsb.items = s.bursts.readCompletionsb.items ++ [burst.1]
            ∧ burstUpdReqQ.items = s.bursts.burstUpdReqQ.items ++ [burst]
            ∧ s' = { s with
                bursts.readBurst2Q := readBurst2Q
                bursts.tagMap.respB := respB
                bursts.readCompletionsb := readCompletionsb
                bursts.burstUpdReqQ := burstUpdReqQ }) := by
  simp only [updateReadBurst1, Option.bind_eq_bind, Option.pure_def] at fires
  split at fires
  next full =>
    refine ⟨full, ?_⟩
    obtain ⟨burst, head, fires⟩ := Option.bind_eq_some_iff.mp fires
    obtain ⟨rest, head⟩ := Fifo.first_eq_some.mp head
    split at fires
    next absent =>
      simp only [Fifo.bind_deq_eq_some, Fifo.bind_enq_eq_some, Bram2.bind_readB_eq_some,
        Option.some.injEq] at fires
      obtain ⟨taken, burst2Q, removed, respB, _, resp, sb, _, marked, updQ, _, put, rfl⟩ := fires
      have same : burst :: rest = taken :: burst2Q.items := head.symm.trans removed
      obtain ⟨rfl, -⟩ := List.cons.inj same
      exact .inr ⟨burst, burst2Q, respB, sb, updQ, removed, absent, resp, marked, put, rfl⟩
    next =>
      cases fires
      exact .inl rfl
  next => cases fires

/-- A burst becomes the current one, and its tag's count moves on. -/
theorem updateReadBurst2_cases (fires : s.updateReadBurst2 = some s')
    : s.bursts.tagWordsLeft.words = 0
      ∧ s.tags.freeTagCnt = 128
      ∧ ∃ counts tagMapReadAQ burst burstUpdReqQ marked readCompletionsb,
          s.bursts.tagMapReadAQ.items = counts :: tagMapReadAQ.items
          ∧ s.bursts.burstUpdReqQ.items = burst :: burstUpdReqQ.items
          ∧ s.bursts.readCompletionsb.items = marked :: readCompletionsb.items
          ∧ s' = { s with
              bursts.tagMapReadAQ := tagMapReadAQ
              bursts.burstUpdReqQ := burstUpdReqQ
              bursts.readCompletionsb := readCompletionsb
              bursts.tagWordsLeft :=
                { tag := burst.1
                  off := counts.2
                  words := (burstCounts counts.1 counts.2 burst.2).2
                  ioff := 0
                  req := counts.1 }
              bursts.tagMap := s.bursts.tagMap.write burst.1
                (counts.1, (burstCounts counts.1 counts.2 burst.2).1) } := by
  simp only [updateReadBurst2, Option.bind_eq_bind, Option.pure_def] at fires
  split at fires
  next idle =>
    simp only [Fifo.bind_deq_eq_some, Option.some.injEq] at fires
    obtain ⟨counts, readQ, taken, burst, updQ, takenBurst, marked, sb, unmarked, rfl⟩ := fires
    exact ⟨idle.1, idle.2, counts, readQ, burst, updQ, marked, sb, taken, takenBurst,
      unmarked, rfl⟩
  next => cases fires

/-- One word goes to its slot, and the tag is reported done with its last word. -/
theorem writeReadBuffer_cases (fires : s.writeReadBuffer = some s')
    : s.bursts.tagWordsLeft.words > 0
      ∧ ∃ word dmaReadWordRQ readDoneTagQ,
          s.bursts.dmaReadWordRQ.items = word :: dmaReadWordRQ.items
          ∧ (if s.bursts.tagWordsLeft.finished then
              readDoneTagQ.items = s.bursts.readDoneTagQ.items
                ++ [(s.bursts.tagWordsLeft.tag,
                  s.bursts.tagWordsLeft.off + s.bursts.tagWordsLeft.ioff + 4)]
            else readDoneTagQ = s.bursts.readDoneTagQ)
          ∧ s' = { s with
              bursts.readDoneTagQ := readDoneTagQ
              bursts.tagWordsLeft.words :=
                if s.bursts.tagWordsLeft.finished then 0 else s.bursts.tagWordsLeft.words - 4
              bursts.tagWordsLeft.ioff := s.bursts.tagWordsLeft.ioff + 4
              bursts.dmaReadWordRQ := dmaReadWordRQ
              reorder.readReorder := s.reorder.readReorder.write
                (writeoff s.bursts.tagWordsLeft) word.word } := by
  simp only [writeReadBuffer, Option.bind_eq_bind, Option.pure_def] at fires
  split at fires
  next busy =>
    obtain ⟨doneQ, reported, fires⟩ := Option.bind_eq_some_iff.mp fires
    simp only [Fifo.bind_deq_eq_some, Option.some.injEq] at fires
    obtain ⟨word, wordQ, taken, rfl⟩ := fires
    refine ⟨busy, word, wordQ, doneQ, taken, ?_, rfl⟩
    split at reported
    next finished =>
      rw [if_pos finished]
      exact (Fifo.enq_eq_some.mp reported).2
    next more =>
      cases reported
      rw [if_neg more]
  next => cases fires

/-- The next tag in request order retires if it is done, and is kept as current if not. -/
theorem compareOrder_cases (fires : s.compareOrder = some s')
    : s' = s
      ∨ (∃ v orderShiftedQ,
          s.order.curOrderTag = none
          ∧ s.order.orderShiftedQ.items = v :: orderShiftedQ.items
          ∧ s.isDone v = false
          ∧ s' = { s with order.orderShiftedQ := orderShiftedQ, order.curOrderTag := some v })
      ∨ ∃ v orderShiftedQ tag orderTagBypassQ2 doneReorderedTagQ,
          s.isDone v
          ∧ s.order.curOrderTag.toList ++ s.order.orderShiftedQ.items
            = v :: orderShiftedQ.items
          ∧ s.order.orderTagBypassQ2.items = tag :: orderTagBypassQ2.items
          ∧ doneReorderedTagQ.items = s.order.doneReorderedTagQ.items ++ [tag]
          ∧ s' = { s with
              order.orderTagMap := s.order.orderTagMap ^^^ v
              order.orderTagBypassQ2 := orderTagBypassQ2
              order.doneReorderedTagQ := doneReorderedTagQ
              order.orderShiftedQ := orderShiftedQ
              order.curOrderTag := none } := by
  simp only [compareOrder, retire, Option.bind_eq_bind, Option.pure_def] at fires
  split at fires
  next ot current =>
    split at fires
    next done =>
      simp only [Option.bind_assoc, Option.bind_some, Fifo.bind_deq_eq_some,
        Fifo.bind_enq_eq_some, Option.some.injEq] at fires
      obtain ⟨tag, bypassQ, taken, reorderedQ, _, put, rfl⟩ := fires
      exact .inr (.inr ⟨ot, s.order.orderShiftedQ, tag, bypassQ, reorderedQ, done,
        by simp [current], taken, put, rfl⟩)
    next =>
      cases fires
      exact .inl rfl
  next current =>
    simp only [Fifo.bind_deq_eq_some] at fires
    obtain ⟨v, shiftedQ, removed, fires⟩ := fires
    split at fires
    next done =>
      simp only [Option.bind_assoc, Option.bind_some, Fifo.bind_deq_eq_some,
        Fifo.bind_enq_eq_some, Option.some.injEq] at fires
      obtain ⟨tag, bypassQ, taken, reorderedQ, _, put, rfl⟩ := fires
      exact .inr (.inr ⟨v, shiftedQ, tag, bypassQ, reorderedQ, done,
        by simp [current, removed], taken, put, by rw [current]⟩)
    next waiting =>
      cases fires
      exact .inr (.inl ⟨v, shiftedQ, current, removed, by simpa using waiting, rfl⟩)

/-- The flush starts on a retired tag, idles, or reads the next word of the tag under way. -/
theorem flushReadTag_cases (fires : s.flushReadTag = some s')
    : (s.reorder.readFlushTag.curword = 0
        ∧ s.reorder.dmaReadOutCntUp - s.reorder.dmaReadOutCntDn < 56
        ∧ ∃ d orderedReadDoneTagQ respB freeReadTagFQ,
            s.order.orderedReadDoneTagQ.items = d :: orderedReadDoneTagQ.items
            ∧ respB.items = s.reorder.readReorder.respB.items
                ++ [s.reorder.readReorder.mem (d.1.zeroExtend 10 <<< 3)]
            ∧ freeReadTagFQ.items = s.tags.freeReadTagFQ.items ++ [d.1]
            ∧ s' = { s with
                order.orderedReadDoneTagQ := orderedReadDoneTagQ
                reorder.readReorder.respB := respB
                reorder.readFlushTag := { tag := d.1, req := d.2, curword := flushLeft d.2 }
                reorder.dmaReadOutCntUp := s.reorder.dmaReadOutCntUp + 1
                tags.freeReadTagFQ := freeReadTagFQ })
      ∨ s' = s
      ∨ (s.reorder.readFlushTag.curword ≠ 0
        ∧ ∃ respB,
            respB.items = s.reorder.readReorder.respB.items
              ++ [s.reorder.readReorder.mem (flushSlot s.reorder.readFlushTag)]
            ∧ s' = { s with
                reorder.readReorder.respB := respB
                reorder.readFlushTag.curword := flushLeft s.reorder.readFlushTag.curword
                reorder.dmaReadOutCntUp := s.reorder.dmaReadOutCntUp + 1 }) := by
  simp only [flushReadTag, Option.bind_eq_bind, Option.pure_def] at fires
  split_ifs at fires with idle room
  · simp only [Fifo.bind_deq_eq_some, Bram2.bind_readB_eq_some, Fifo.bind_enq_eq_some,
      Option.some.injEq] at fires
    obtain ⟨d, doneQ, taken, respB, _, put, freeQ, _, freed, rfl⟩ := fires
    exact .inl ⟨idle, room, d, doneQ, respB, freeQ, taken, put, freed, rfl⟩
  · cases fires
    exact .inr (.inl rfl)
  · simp only [Bram2.bind_readB_eq_some, Option.some.injEq] at fires
    obtain ⟨respB, _, put, rfl⟩ := fires
    exact .inr (.inr ⟨idle, respB, put, rfl⟩)

end Cases

end PcieCtrl

end BluespecPcie

import BluespecPcie.PcieCtrl.State

/-! Rules of the receive side: realignment, parsing and host register accesses. -/

namespace BluespecPcie

open Bluespec

/-- One beat of the receive stream: data, byte enables and the `ruser` side band. -/
structure RxBeat where
  tlp : BitVec 128
  keep : BitVec 16
  ruser : BitVec 22
deriving DecidableEq, Inhabited

namespace RxBeat

/-- `ruser[21]`, a TLP ends in this beat. -/
def last (b : RxBeat) : Bool := b.ruser.getLsbD 21

def sof_present (b : RxBeat) : Bool := b.ruser.getLsbD 14

/-- A TLP starts at byte 8. -/
def sof_mid (b : RxBeat) : Bool := b.ruser.extractLsb 13 10 == 0b1000#4 && b.sof_present

/-- A TLP starts at byte 0. -/
def sof_right (b : RxBeat) : Bool := b.ruser.extractLsb 13 10 == 0b0000#4 && b.sof_present

end RxBeat

/-- `{curPart, lastPart}`: the lower half of the beat above the kept part. -/
def joinParts (tlp pb : BitVec 128) : BitVec 128 := tlp.extractLsb 63 0 ++ pb.extractLsb 63 0

/-- `{curKeep, lastKeep}`. -/
def joinKeeps (keep kept : BitVec 16) : BitVec 16 := keep.extractLsb 7 0 ++ kept.extractLsb 7 0

/-- `partOffset[3]`, the TLP under way started at byte 8. -/
def Realign.shifted (r : Realign) : Bool := r.partOffset.getLsbD 3

/-- The body of `recvTLP`: the registers after the beat, and the beat enqueued, if any. -/
def Realign.next (r : Realign) (b : RxBeat) : Realign × Option (BitVec 128 × BitVec 16) :=
  if b.sof_right then
    ({ r with partOffset := 0, partBuffer := none }, some (b.tlp, b.keep))
  else if b.sof_mid then
    ({ partOffset := 8, partBuffer := some (b.tlp >>> 64), keepBuffer := b.keep >>> 8 },
      match r.partBuffer with
      | some pb => some (joinParts b.tlp pb, joinKeeps b.keep r.keepBuffer)
      | none => none)
  else if r.shifted = false then
    (r, some (b.tlp, b.keep))
  else
    -- The source reads an invalid `partBuffer` here as `?`; the model reads zero.
    (if b.last then { r with partBuffer := none }
      else { r with partBuffer := some (b.tlp >>> 64), keepBuffer := b.keep >>> 8 },
      some (joinParts b.tlp (r.partBuffer.getD 0), joinKeeps b.keep r.keepBuffer))

namespace PcieCtrl

def recvTLP (s : PcieCtrl) (b : RxBeat) : Option PcieCtrl :=
  let (realign, beat) := s.rx.realign.next b
  match beat with
  | none => some { s with rx.realign := realign }
  | some (tlp, keep) => do
      let tlpQ ← s.rx.tlpQ.enq tlp
      let tlpKeepQ ← s.rx.tlpKeepQ.enq keep
      return { s with rx.realign := realign, rx.tlpQ := tlpQ, rx.tlpKeepQ := tlpKeepQ }

/-- Payload beats: three DWs complete the current word, the fourth starts the next. -/
def procCompletionTLP (s : PcieCtrl) : Option PcieCtrl :=
  if s.rx.completionRecvLength > 0 then do
    let (tlp, tlpQ) ← s.rx.tlpQ.deq
    let (_, tlpKeepQ) ← s.rx.tlpKeepQ.deq
    let data0 := reverseEndian (dword tlp 0)
    let data1 := reverseEndian (dword tlp 1)
    let data2 := reverseEndian (dword tlp 2)
    let dmaReadWordQ ← s.bursts.dmaReadWordQ.enq
      { word := data2 ++ data1 ++ data0 ++ s.rx.dmaReadBuffer, tag := s.rx.completionRecvTag }
    return { s with
      rx.tlpQ := tlpQ
      rx.tlpKeepQ := tlpKeepQ
      rx.dmaReadBuffer := reverseEndian (dword tlp 3)
      rx.completionRecvLength :=
        if s.rx.completionRecvLength ≥ 4 then s.rx.completionRecvLength - 4 else 0
      bursts.dmaReadWordQ := dmaReadWordQ }
  else none

/-- The status registers that `filterStatReadTLP` answers at once. -/
def statusRegister (s : PcieCtrl) (internalAddr : BitVec 20) : Option (BitVec 32) :=
  if internalAddr = 0 then some 0xc001d00d#32
  else if internalAddr = 4 then some s.io.debugCode
  else if internalAddr = io_userspace_offset - 8 then some s.io.userReadEmit
  else if internalAddr = io_userspace_offset - 4 then some s.io.userWriteEmit
  else none

/-- The completion of a status register read. -/
def statusCompletion (s : PcieCtrl) (tlp : BitVec 128) (data : BitVec 32) : SendTLP :=
  completionTLP s.cfg_completer_id (requesterID tlp) (requestTag tlp) (tlpTc tlp)
    (tlpTd tlp) (tlpEp tlp) (tlpAttr tlp) ((requestAddr tlp).truncate 7) data

/-- Header beats: answer status reads, open completions, and pass the rest to `procTLP`. -/
def filterStatReadTLP (s : PcieCtrl) : Option PcieCtrl :=
  if s.rx.completionRecvLength = 0 then do
    let (tlp, tlpQ) ← s.rx.tlpQ.deq
    let (_, tlpKeepQ) ← s.rx.tlpKeepQ.deq
    if isRead (tlpType tlp) then
      match s.statusRegister ((requestAddr tlp).truncate 20) with
      | some data => do
          let sendTLPm ← s.tx.sendTLPm.enq 8 0 (s.statusCompletion tlp data)
          return { s with
            rx.tlpQ := tlpQ, rx.tlpKeepQ := tlpKeepQ, tx.sendTLPm := sendTLPm }
      | none => do
          let tlp2Q ← s.rx.tlp2Q.enq tlp
          return { s with rx.tlpQ := tlpQ, rx.tlpKeepQ := tlpKeepQ, rx.tlp2Q := tlp2Q }
    else if isCompletion (tlpType tlp) then do
      let length := tlpLength tlp
      let tag := completionTag tlp
      let dmaReadWordQ ← (if length ≤ 1 then s.bursts.dmaReadWordQ.enq { word := tlp, tag }
        else some s.bursts.dmaReadWordQ)
      let readBurstQ ← s.bursts.readBurstQ.enq (tag, length)
      return { s with
        rx.tlpQ := tlpQ
        rx.tlpKeepQ := tlpKeepQ
        rx.completionRecvLength := length - 1
        rx.completionRecvTag := tag
        rx.dmaReadBuffer := reverseEndian (dword tlp 3)
        bursts.dmaReadWordQ := dmaReadWordQ
        bursts.readBurstQ := readBurstQ }
    else do
      let tlp2Q ← s.rx.tlp2Q.enq tlp
      return { s with rx.tlpQ := tlpQ, rx.tlpKeepQ := tlpKeepQ, rx.tlp2Q := tlp2Q }
  else none

/-- The request a read TLP makes, with the offset of its region subtracted. -/
def readRequest (tlp : BitVec 128) (offset : BitVec 20) : IOReadReq where
  requesterID := requesterID tlp
  tag := requestTag tlp
  addr := (requestAddr tlp).truncate 20 - offset
  tc := tlpTc tlp
  td := tlpTd tlp
  ep := tlpEp tlp
  attr := tlpAttr tlp

/-- Reads go to the configuration buffer or to the user; writes go on to `procIOWrite`. -/
def procTLP (s : PcieCtrl) : Option PcieCtrl :=
  if s.rx.completionRecvLength = 0 then do
    let (tlp, tlp2Q) ← s.rx.tlp2Q.deq
    if isRead (tlpType tlp) then
      let internalAddr : BitVec 20 := (requestAddr tlp).truncate 20
      if internalAddr < io_userspace_offset then do
        let configBuffer ← s.pages.configBuffer.readA ((internalAddr >>> 2).truncate 12)
        let ioReadQ ← s.io.ioReadQ.enq (readRequest tlp 0)
        return { s with
          rx.tlp2Q := tlp2Q, pages.configBuffer := configBuffer, io.ioReadQ := ioReadQ }
      else do
        let userReadQ0 ← s.io.userReadQ0.enq (readRequest tlp io_userspace_offset)
        return { s with rx.tlp2Q := tlp2Q, io.userReadQ0 := userReadQ0 }
    else if isWrite (tlpType tlp) then do
      let tlp3Q ← s.rx.tlp3Q.enq tlp
      return { s with rx.tlp2Q := tlp2Q, rx.tlp3Q := tlp3Q }
    else
      return { s with rx.tlp2Q := tlp2Q }
  else none

def relayUserReadQ0 (s : PcieCtrl) : Option PcieCtrl := do
  let (r, userReadQ0) ← s.io.userReadQ0.deq
  let userReadQ1 ← s.io.userReadQ1.enq r
  return { s with io.userReadQ0 := userReadQ0, io.userReadQ1 := userReadQ1 }

def relayUserReadQ1 (s : PcieCtrl) : Option PcieCtrl := do
  let (r, userReadQ1) ← s.io.userReadQ1.deq
  let userReadQ2 ← s.io.userReadQ2.enq r
  return { s with io.userReadQ1 := userReadQ1, io.userReadQ2 := userReadQ2 }

/-- The completion of a read of the configuration buffer. -/
def configCompletion (s : PcieCtrl) (ioreq : IOReadReq) (v : BitVec 32) : SendTLP :=
  completionTLP s.cfg_completer_id ioreq.requesterID ioreq.tag ioreq.tc ioreq.td ioreq.ep
    ioreq.attr (ioreq.addr.truncate 7) v

def completeIORead (s : PcieCtrl) : Option PcieCtrl := do
  let (ioreq, ioReadQ) ← s.io.ioReadQ.deq
  let (v, configBuffer) ← s.pages.configBuffer.getA
  let sendTLPm ← s.tx.sendTLPm.enq 8 2 (s.configCompletion ioreq v)
  return { s with
    io.ioReadQ := ioReadQ, pages.configBuffer := configBuffer, tx.sendTLPm := sendTLPm }

/-- The user-region write a write TLP makes. -/
def ioWrite (tlp : BitVec 128) : IOWrite where
  addr := (requestAddr tlp).truncate 20 - io_userspace_offset
  data := reverseEndian (dword tlp 3)

/-- The completion of an I/O write. -/
def ioWriteCompletion (s : PcieCtrl) (tlp : BitVec 128) : SendTLP :=
  writeCompletionTLP s.cfg_completer_id (requesterID tlp) (requestTag tlp)
    ((requestAddr tlp).truncate 7)

/-- The effect of `procIOWrite` on the registers, the configuration buffer and the user. -/
def applyIOWrite (s : PcieCtrl) (tlp : BitVec 128) : Option PcieCtrl :=
  let internalAddr : BitVec 20 := (requestAddr tlp).truncate 20
  if internalAddr = 0 then
    some { s with io.userWriteEmit := 0, io.userReadEmit := 0 }
  else if internalAddr < io_userspace_offset then
    some { s with
      pages.configBuffer := s.pages.configBuffer.write ((internalAddr >>> 2).truncate 12)
        (reverseEndian (dword tlp 3)) }
  else do
    let userWrite1Q ← s.io.userWrite1Q.enq (ioWrite tlp)
    return { s with io.userWrite1Q := userWrite1Q }

def procIOWrite (s : PcieCtrl) : Option PcieCtrl := do
  let (tlp, tlp3Q) ← s.rx.tlp3Q.deq
  let s' ← s.applyIOWrite tlp
  let sendTLPm ← (if tlpType tlp = type_wr32_io
    then s.tx.sendTLPm.enq 8 1 (s.ioWriteCompletion tlp)
    else some s.tx.sendTLPm)
  return { s' with rx.tlp3Q := tlp3Q, tx.sendTLPm := sendTLPm }

def relayUserWriteQ (s : PcieCtrl) : Option PcieCtrl := do
  let (w, userWrite1Q) ← s.io.userWrite1Q.deq
  let userWriteQ ← s.io.userWriteQ.enq w
  return { s with io.userWrite1Q := userWrite1Q, io.userWriteQ := userWriteQ }

def relayUserWrite2Q (s : PcieCtrl) : Option PcieCtrl := do
  let (w, userWriteQ) ← s.io.userWriteQ.deq
  let userWrite2Q ← s.io.userWrite2Q.enq w
  return { s with io.userWriteQ := userWriteQ, io.userWrite2Q := userWrite2Q }

/-- Method `dataReceive`; it counts what it hands out. -/
def dataReceive (s : PcieCtrl) : Option (IOWrite × PcieCtrl) := do
  let (w, userWrite2Q) ← s.io.userWrite2Q.deq
  return (w, { s with
    io.userWrite2Q := userWrite2Q, io.userWriteEmit := s.io.userWriteEmit + 1 })

/-- Method `dataReq`; it counts what it hands out. -/
def dataReq (s : PcieCtrl) : Option (IOReadReq × PcieCtrl) := do
  let (r, userReadQ2) ← s.io.userReadQ2.deq
  return (r, { s with
    io.userReadQ2 := userReadQ2, io.userReadEmit := s.io.userReadEmit + 1 })

-----------------------------------------------------------------------------------------
-- What a firing does
-----------------------------------------------------------------------------------------

section Cases

variable {s s' : PcieCtrl}

/-- A received beat moves the realignment registers, and enqueues at most one beat. -/
theorem recvTLP_cases {b : RxBeat} (fires : s.recvTLP b = some s')
    : ((s.rx.realign.next b).2 = none
        ∧ s' = { s with rx.realign := (s.rx.realign.next b).1 })
      ∨ ∃ tlp keep tlpQ tlpKeepQ,
          (s.rx.realign.next b).2 = some (tlp, keep)
          ∧ tlpQ.items = s.rx.tlpQ.items ++ [tlp]
          ∧ tlpKeepQ.items = s.rx.tlpKeepQ.items ++ [keep]
          ∧ s' = { s with
              rx.realign := (s.rx.realign.next b).1
              rx.tlpQ := tlpQ
              rx.tlpKeepQ := tlpKeepQ } := by
  simp only [recvTLP, Option.bind_eq_bind, Option.pure_def] at fires
  split at fires
  next none =>
    cases fires
    exact .inl ⟨none, rfl⟩
  next tlp keep some =>
    simp only [Fifo.bind_enq_eq_some, Option.some.injEq] at fires
    obtain ⟨tlpQ, _, put, tlpKeepQ, _, putKeep, rfl⟩ := fires
    exact .inr ⟨tlp, keep, tlpQ, tlpKeepQ, some, put, putKeep, rfl⟩

/-- The word a payload beat completes. -/
def completedWord (s : PcieCtrl) (tlp : BitVec 128) : DMAWordTagged where
  word := reverseEndian (dword tlp 2) ++ reverseEndian (dword tlp 1)
    ++ reverseEndian (dword tlp 0) ++ s.rx.dmaReadBuffer
  tag := s.rx.completionRecvTag

/-- A payload beat is only consumed inside a completion, and completes one word. -/
theorem procCompletionTLP_cases (fires : s.procCompletionTLP = some s')
    : s.rx.completionRecvLength > 0
      ∧ ∃ tlp tlpQ keep tlpKeepQ dmaReadWordQ,
          s.rx.tlpQ.items = tlp :: tlpQ.items
          ∧ s.rx.tlpKeepQ.items = keep :: tlpKeepQ.items
          ∧ dmaReadWordQ.items = s.bursts.dmaReadWordQ.items ++ [s.completedWord tlp]
          ∧ s' = { s with
              rx.tlpQ := tlpQ
              rx.tlpKeepQ := tlpKeepQ
              rx.dmaReadBuffer := reverseEndian (dword tlp 3)
              rx.completionRecvLength :=
                if s.rx.completionRecvLength ≥ 4 then s.rx.completionRecvLength - 4 else 0
              bursts.dmaReadWordQ := dmaReadWordQ } := by
  simp only [procCompletionTLP, Option.bind_eq_bind, Option.pure_def] at fires
  split at fires
  next busy =>
    simp only [Fifo.bind_deq_eq_some, Fifo.bind_enq_eq_some, Option.some.injEq] at fires
    obtain ⟨tlp, tlpQ, taken, keep, tlpKeepQ, takenKeep, wordQ, _, put, rfl⟩ := fires
    exact ⟨busy, tlp, tlpQ, keep, tlpKeepQ, wordQ, taken, takenKeep, put, rfl⟩
  next => cases fires

/-- A header beat is answered at once, passed on, or opens a completion. -/
theorem filterStatReadTLP_cases (fires : s.filterStatReadTLP = some s')
    : s.rx.completionRecvLength = 0
      ∧ ∃ tlp tlpQ keep tlpKeepQ,
          s.rx.tlpQ.items = tlp :: tlpQ.items
          ∧ s.rx.tlpKeepQ.items = keep :: tlpKeepQ.items
          ∧ ((∃ data sendTLPm,
                isRead (tlpType tlp)
                ∧ s.statusRegister ((requestAddr tlp).truncate 20) = some data
                ∧ s.tx.sendTLPm.enq 8 0 (s.statusCompletion tlp data) = some sendTLPm
                ∧ s' = { s with
                    rx.tlpQ := tlpQ, rx.tlpKeepQ := tlpKeepQ, tx.sendTLPm := sendTLPm })
            ∨ (∃ tlp2Q,
                (isRead (tlpType tlp)
                  → s.statusRegister ((requestAddr tlp).truncate 20) = none)
                ∧ (isRead (tlpType tlp) ∨ ¬isCompletion (tlpType tlp))
                ∧ tlp2Q.items = s.rx.tlp2Q.items ++ [tlp]
                ∧ s' = { s with
                    rx.tlpQ := tlpQ, rx.tlpKeepQ := tlpKeepQ, rx.tlp2Q := tlp2Q })
            ∨ ∃ dmaReadWordQ readBurstQ,
                ¬isRead (tlpType tlp)
                ∧ isCompletion (tlpType tlp)
                ∧ (if tlpLength tlp ≤ 1 then
                    dmaReadWordQ.items = s.bursts.dmaReadWordQ.items
                      ++ [{ word := tlp, tag := completionTag tlp }]
                  else dmaReadWordQ = s.bursts.dmaReadWordQ)
                ∧ readBurstQ.items = s.bursts.readBurstQ.items
                    ++ [(completionTag tlp, tlpLength tlp)]
                ∧ s' = { s with
                    rx.tlpQ := tlpQ
                    rx.tlpKeepQ := tlpKeepQ
                    rx.completionRecvLength := tlpLength tlp - 1
                    rx.completionRecvTag := completionTag tlp
                    rx.dmaReadBuffer := reverseEndian (dword tlp 3)
                    bursts.dmaReadWordQ := dmaReadWordQ
                    bursts.readBurstQ := readBurstQ }) := by
  simp only [filterStatReadTLP, Option.bind_eq_bind, Option.pure_def] at fires
  split at fires
  next idle =>
    simp only [Fifo.bind_deq_eq_some] at fires
    obtain ⟨tlp, tlpQ, taken, keep, tlpKeepQ, takenKeep, fires⟩ := fires
    refine ⟨idle, tlp, tlpQ, keep, tlpKeepQ, taken, takenKeep, ?_⟩
    split at fires
    next read =>
      split at fires
      next data status =>
        simp only [Option.bind_eq_some_iff, Option.some.injEq] at fires
        obtain ⟨sendTLPm, put, rfl⟩ := fires
        exact .inl ⟨data, sendTLPm, read, status, put, rfl⟩
      next status =>
        simp only [Fifo.bind_enq_eq_some, Option.some.injEq] at fires
        obtain ⟨tlp2Q, _, put, rfl⟩ := fires
        exact .inr (.inl ⟨tlp2Q, fun _ => status, .inl read, put, rfl⟩)
    next notRead =>
      split at fires
      next completion =>
        simp only [Option.bind_eq_some_iff, Fifo.enq_eq_some, Option.some.injEq] at fires
        obtain ⟨wordQ, word, burstQ, ⟨_, put⟩, rfl⟩ := fires
        refine .inr (.inr ⟨wordQ, burstQ, notRead, completion, ?_, put, rfl⟩)
        split at word
        next short =>
          rw [if_pos short]
          exact (Fifo.enq_eq_some.mp word).2
        next long =>
          cases word
          rw [if_neg long]
      next other =>
        simp only [Fifo.bind_enq_eq_some, Option.some.injEq] at fires
        obtain ⟨tlp2Q, _, put, rfl⟩ := fires
        exact .inr (.inl ⟨tlp2Q, fun read => absurd read notRead, .inr other, put, rfl⟩)
  next => cases fires

/-- A request goes to the configuration buffer, to the user, to `procIOWrite`, or nowhere. -/
theorem procTLP_cases (fires : s.procTLP = some s')
    : s.rx.completionRecvLength = 0
      ∧ ∃ tlp tlp2Q,
          s.rx.tlp2Q.items = tlp :: tlp2Q.items
          ∧ ((∃ respA ioReadQ,
                isRead (tlpType tlp)
                ∧ (requestAddr tlp).truncate 20 < io_userspace_offset
                ∧ respA.items = s.pages.configBuffer.respA.items
                    ++ [s.pages.configBuffer.mem
                      ((((requestAddr tlp).truncate 20 : BitVec 20) >>> 2).truncate 12)]
                ∧ ioReadQ.items = s.io.ioReadQ.items ++ [readRequest tlp 0]
                ∧ s' = { s with
                    rx.tlp2Q := tlp2Q
                    pages.configBuffer.respA := respA
                    io.ioReadQ := ioReadQ })
            ∨ (∃ userReadQ0,
                isRead (tlpType tlp)
                ∧ ¬(requestAddr tlp).truncate 20 < io_userspace_offset
                ∧ userReadQ0.items = s.io.userReadQ0.items
                    ++ [readRequest tlp io_userspace_offset]
                ∧ s' = { s with rx.tlp2Q := tlp2Q, io.userReadQ0 := userReadQ0 })
            ∨ (∃ tlp3Q,
                ¬isRead (tlpType tlp)
                ∧ isWrite (tlpType tlp)
                ∧ tlp3Q.items = s.rx.tlp3Q.items ++ [tlp]
                ∧ s' = { s with rx.tlp2Q := tlp2Q, rx.tlp3Q := tlp3Q })
            ∨ (¬isRead (tlpType tlp)
                ∧ ¬isWrite (tlpType tlp)
                ∧ s' = { s with rx.tlp2Q := tlp2Q })) := by
  simp only [procTLP, Option.bind_eq_bind, Option.pure_def] at fires
  split at fires
  next idle =>
    simp only [Fifo.bind_deq_eq_some] at fires
    obtain ⟨tlp, tlp2Q, taken, fires⟩ := fires
    refine ⟨idle, tlp, tlp2Q, taken, ?_⟩
    split_ifs at fires with read config write
    · simp only [Bram2.bind_readA_eq_some, Fifo.bind_enq_eq_some, Option.some.injEq] at fires
      obtain ⟨respA, _, resp, ioReadQ, _, put, rfl⟩ := fires
      exact .inl ⟨respA, ioReadQ, read, config, resp, put, rfl⟩
    · simp only [Fifo.bind_enq_eq_some, Option.some.injEq] at fires
      obtain ⟨userReadQ0, _, put, rfl⟩ := fires
      exact .inr (.inl ⟨userReadQ0, read, config, put, rfl⟩)
    · simp only [Fifo.bind_enq_eq_some, Option.some.injEq] at fires
      obtain ⟨tlp3Q, _, put, rfl⟩ := fires
      exact .inr (.inr (.inl ⟨tlp3Q, read, write, put, rfl⟩))
    · cases fires
      exact .inr (.inr (.inr ⟨read, write, rfl⟩))
  next => cases fires

/-- A write resets the emit counters, goes to the configuration buffer or to the user; an
I/O write is also answered.
-/
theorem procIOWrite_cases (fires : s.procIOWrite = some s')
    : ∃ tlp tlp3Q sendTLPm,
        s.rx.tlp3Q.items = tlp :: tlp3Q.items
        ∧ (if tlpType tlp = type_wr32_io then
            s.tx.sendTLPm.enq 8 1 (s.ioWriteCompletion tlp) = some sendTLPm
          else sendTLPm = s.tx.sendTLPm)
        ∧ (((requestAddr tlp).truncate 20 = 0#20
              ∧ s' = { s with
                  rx.tlp3Q := tlp3Q
                  tx.sendTLPm := sendTLPm
                  io.userWriteEmit := 0
                  io.userReadEmit := 0 })
          ∨ ((requestAddr tlp).truncate 20 ≠ 0#20
              ∧ (requestAddr tlp).truncate 20 < io_userspace_offset
              ∧ s' = { s with
                  rx.tlp3Q := tlp3Q
                  tx.sendTLPm := sendTLPm
                  pages.configBuffer := s.pages.configBuffer.write
                    ((((requestAddr tlp).truncate 20 : BitVec 20) >>> 2).truncate 12)
                    (reverseEndian (dword tlp 3)) })
          ∨ ((requestAddr tlp).truncate 20 ≠ 0#20
              ∧ ¬(requestAddr tlp).truncate 20 < io_userspace_offset
              ∧ ∃ userWrite1Q,
                  userWrite1Q.items = s.io.userWrite1Q.items ++ [ioWrite tlp]
                  ∧ s' = { s with
                      rx.tlp3Q := tlp3Q
                      tx.sendTLPm := sendTLPm
                      io.userWrite1Q := userWrite1Q })) := by
  simp only [procIOWrite, Option.bind_eq_bind, Option.pure_def, Fifo.bind_deq_eq_some] at fires
  obtain ⟨tlp, tlp3Q, taken, fires⟩ := fires
  simp only [Option.bind_eq_some_iff, Option.some.injEq] at fires
  obtain ⟨next, applied, sendTLPm, answer, rfl⟩ := fires
  refine ⟨tlp, tlp3Q, sendTLPm, taken, ?_, ?_⟩
  · split at answer
    next io => simpa [io] using answer
    next mem =>
      cases answer
      simp [mem]
  · simp only [applyIOWrite, Option.bind_eq_bind, Option.pure_def] at applied
    split_ifs at applied with reset config
    · cases applied
      exact .inl ⟨reset, rfl⟩
    · cases applied
      exact .inr (.inl ⟨reset, config, rfl⟩)
    · simp only [Fifo.bind_enq_eq_some, Option.some.injEq] at applied
      obtain ⟨userWrite1Q, _, put, rfl⟩ := applied
      exact .inr (.inr ⟨reset, config, userWrite1Q, put, rfl⟩)

end Cases

end PcieCtrl

end BluespecPcie

import BluespecPcie.Bluespec.Machine
import BluespecPcie.Bluespec.Stores
import BluespecPcie.MergeItems

/-! `mkDRAMBurstSplitter` over `mkDRAMBurstController` of DRAMBurstController.bsv. -/

namespace BluespecPcie

open Bluespec

-----------------------------------------------------------------------------------------
-- The DRAM
-----------------------------------------------------------------------------------------

/-- A call of `DRAMUserIfc`, for 64 bytes. -/
inductive DramCall where
  | write (addr : BitVec 64) (word : BitVec 512)
  | readReq (addr : BitVec 64)
deriving DecidableEq

/-- An in-order DRAM: the calls it took, and the responses that are not taken yet. What a read
returns is a function `answer` of the calls before it.
-/
structure DramUser where
  calls : List DramCall
  responses : List (BitVec 512)

/-- A read, answered behind those before it. -/
def DramUser.readReq (answer : List DramCall → BitVec 64 → BitVec 512) (d : DramUser)
    (addr : BitVec 64) : DramUser where
  calls := d.calls ++ [.readReq addr]
  responses := d.responses ++ [answer d.calls addr]

def DramUser.write (d : DramUser) (addr : BitVec 64) (word : BitVec 512) : DramUser :=
  { d with calls := d.calls ++ [.write addr word] }

def DramUser.read (d : DramUser) : Option (BitVec 512 × DramUser) :=
  match d.responses with
  | [] => none
  | v :: responses => some (v, { d with responses })

-----------------------------------------------------------------------------------------
-- mkDRAMBurstController
-----------------------------------------------------------------------------------------

structure DRAMBurstController where
  writeCurAddr : BitVec 64
  writeWordLeft : BitVec 32
  readCurAddr : BitVec 64
  readWordLeft : BitVec 32
  dram : DramUser

/-- The controller after reset. -/
def mkDRAMBurstController : DRAMBurstController := ⟨0, 0, 0, 0, [], []⟩

namespace DRAMBurstController

def dramReadReq (answer : List DramCall → BitVec 64 → BitVec 512) (m : DRAMBurstController)
    : Option DRAMBurstController :=
  if 0 < m.readWordLeft then
    some { m with
      dram := m.dram.readReq answer m.readCurAddr
      readWordLeft := m.readWordLeft - 1
      readCurAddr := m.readCurAddr + 64 }
  else none

def writeReq (m : DRAMBurstController) (addr : BitVec 64) (words : BitVec 32)
    : Option DRAMBurstController :=
  if m.writeWordLeft = 0 ∧ m.readWordLeft = 0 then
    some { m with writeCurAddr := addr, writeWordLeft := words }
  else none

def readReq (m : DRAMBurstController) (addr : BitVec 64) (words : BitVec 32)
    : Option DRAMBurstController :=
  if m.readWordLeft = 0 ∧ m.writeWordLeft = 0 then
    some { m with readCurAddr := addr, readWordLeft := words }
  else none

def write (m : DRAMBurstController) (word : BitVec 512) : Option DRAMBurstController :=
  if 0 < m.writeWordLeft then
    some { m with
      dram := m.dram.write m.writeCurAddr word
      writeCurAddr := m.writeCurAddr + 64
      writeWordLeft := m.writeWordLeft - 1 }
  else none

def read (m : DRAMBurstController) : Option (BitVec 512 × DRAMBurstController) := do
  let (v, dram) ← m.dram.read
  return (v, { m with dram })

end DRAMBurstController

-----------------------------------------------------------------------------------------
-- mkDRAMBurstSplitter
-----------------------------------------------------------------------------------------

/-- A request of a client, with its index. -/
structure BurstReq where
  addr : BitVec 64
  words : BitVec 32
  idx : BitVec 8
deriving DecidableEq

/-- The splitter with its controller. -/
structure DRAMBurstSplitter where
  mReader : MergeN BurstReq
  mWriter : MergeN BurstReq
  readerQs : Nat → Fifo (BitVec 512) 2
  writerM : MergeN (BitVec 512)
  writerdQ : Fifo (BitVec 512) 8
  readerdQ : Fifo (BitVec 8 × BitVec 512) 8
  readerQ : Fifo BurstReq 2
  writerQ : Fifo BurstReq 2
  curReadCnt : BitVec 32
  curWriteCnt : BitVec 32
  curClientIdx : BitVec 8
  curCnt : BitVec 32
  ctl : DRAMBurstController

/-- The splitter for `rcnt` readers and `wcnt` writers after reset. -/
def mkDRAMBurstSplitter (rcnt wcnt : Nat) : DRAMBurstSplitter where
  mReader := mkMergeN rcnt
  mWriter := mkMergeN wcnt
  readerQs := fun _ => .empty
  writerM := mkMergeN wcnt
  writerdQ := .empty
  readerdQ := .empty
  readerQ := .empty
  writerQ := .empty
  curReadCnt := 0
  curWriteCnt := 0
  curClientIdx := 0
  curCnt := 0
  ctl := mkDRAMBurstController

namespace DRAMBurstSplitter

def relayDramRead (m : DRAMBurstSplitter) : Option DRAMBurstSplitter := do
  let (r, mReader) ← m.mReader.deq
  let readerQ ← m.readerQ.enq r
  return { m with mReader, readerQ }

def relayDramWrite (m : DRAMBurstSplitter) : Option DRAMBurstSplitter := do
  let (r, mWriter) ← m.mWriter.deq
  let writerQ ← m.writerQ.enq r
  return { m with mWriter, writerQ }

def startDramWrite (m : DRAMBurstSplitter) : Option DRAMBurstSplitter :=
  if m.curReadCnt = 0 ∧ m.curWriteCnt = 0 then do
    let (r, writerQ) ← m.writerQ.deq
    let ctl ← m.ctl.writeReq r.addr r.words
    return { m with writerQ, ctl, curWriteCnt := r.words, curClientIdx := r.idx }
  else none

def startDramRead (m : DRAMBurstSplitter) : Option DRAMBurstSplitter :=
  if m.curReadCnt = 0 ∧ m.curWriteCnt = 0 then do
    let (r, readerQ) ← m.readerQ.deq
    let ctl ← m.ctl.readReq r.addr r.words
    return { m with readerQ, ctl, curReadCnt := r.words, curClientIdx := r.idx }
  else none

def relayWriteC (m : DRAMBurstSplitter) : Option DRAMBurstSplitter := do
  let (word, writerM) ← m.writerM.deq
  let writerdQ ← m.writerdQ.enq word
  return { m with writerM, writerdQ, curCnt := m.curCnt - 1 }

def relayWrite (m : DRAMBurstSplitter) : Option DRAMBurstSplitter :=
  if m.curReadCnt = 0 ∧ 0 < m.curWriteCnt then do
    let (d, writerdQ) ← m.writerdQ.deq
    let ctl ← m.ctl.write d
    return { m with curWriteCnt := m.curWriteCnt - 1, writerdQ, ctl }
  else none

def relayRead (m : DRAMBurstSplitter) : Option DRAMBurstSplitter :=
  if 0 < m.curReadCnt ∧ m.curWriteCnt = 0 then do
    let (d, ctl) ← m.ctl.read
    let readerdQ ← m.readerdQ.enq (m.curClientIdx, d)
    return { m with curReadCnt := m.curReadCnt - 1, ctl, readerdQ }
  else none

def relayReadClient (m : DRAMBurstSplitter) : Option DRAMBurstSplitter := do
  let (r, readerdQ) ← m.readerdQ.deq
  let q ← (m.readerQs r.1.toNat).enq r.2
  return { m with
    readerdQ
    curCnt := m.curCnt - 1
    readerQs := Function.update m.readerQs r.1.toNat q }

/-- `readReq` of reader `i`. -/
def readReq (rcnt i : Nat) (m : DRAMBurstSplitter) (addr : BitVec 64) (words : BitVec 32)
    : Option DRAMBurstSplitter :=
  if m.curCnt = 0 then do
    let mReader ← m.mReader.enq rcnt i ⟨addr, words, BitVec.ofNat 8 i⟩
    return { m with mReader, curCnt := words }
  else none

/-- `read` of reader `i`. -/
def read (i : Nat) (m : DRAMBurstSplitter) : Option (BitVec 512 × DRAMBurstSplitter) := do
  let (word, q) ← (m.readerQs i).deq
  return (word, { m with readerQs := Function.update m.readerQs i q })

/-- `writeReq` of writer `i`. -/
def writeReq (wcnt i : Nat) (m : DRAMBurstSplitter) (addr : BitVec 64) (words : BitVec 32)
    : Option DRAMBurstSplitter :=
  if m.curCnt = 0 then do
    let mWriter ← m.mWriter.enq wcnt i ⟨addr, words, BitVec.ofNat 8 i⟩
    return { m with mWriter, curCnt := words }
  else none

/-- `write` of writer `i`. -/
def write (wcnt i : Nat) (m : DRAMBurstSplitter) (word : BitVec 512)
    : Option DRAMBurstSplitter := do
  let writerM ← m.writerM.enq wcnt i word
  return { m with writerM }

end DRAMBurstSplitter

-----------------------------------------------------------------------------------------
-- Runs
-----------------------------------------------------------------------------------------

/-- A rule of the splitter, of its merge trees, or of the controller. -/
inductive SplitterRule where
  | relayDramRead
  | relayDramWrite
  | startDramWrite
  | startDramRead
  | relayWriteC
  | relayWrite
  | relayRead
  | relayReadClient
  | dramReadReq
  | mReader (rule : MergeRule)
  | mWriter (rule : MergeRule)
  | writerM (rule : MergeRule)
deriving DecidableEq

/-- A rule, or a call of a client. -/
inductive SplitterEvent where
  | rule (rule : SplitterRule)
  | readReq (i : Nat) (addr : BitVec 64) (words : BitVec 32)
  | read (i : Nat)
  | writeReq (i : Nat) (addr : BitVec 64) (words : BitVec 32)
  | write (i : Nat) (word : BitVec 512)

namespace DRAMBurstSplitter

def fire (answer : List DramCall → BitVec 64 → BitVec 512) (m : DRAMBurstSplitter)
    : SplitterRule → Option DRAMBurstSplitter
  | .relayDramRead => m.relayDramRead
  | .relayDramWrite => m.relayDramWrite
  | .startDramWrite => m.startDramWrite
  | .startDramRead => m.startDramRead
  | .relayWriteC => m.relayWriteC
  | .relayWrite => m.relayWrite
  | .relayRead => m.relayRead
  | .relayReadClient => m.relayReadClient
  | .dramReadReq => (m.ctl.dramReadReq answer).map (fun ctl => { m with ctl })
  | .mReader rule => (m.mReader.fire rule).map (fun mReader => { m with mReader })
  | .mWriter rule => (m.mWriter.fire rule).map (fun mWriter => { m with mWriter })
  | .writerM rule => (m.writerM.fire rule).map (fun writerM => { m with writerM })

/-- One event of a splitter for `rcnt` readers and `wcnt` writers. -/
def step (rcnt wcnt : Nat) (answer : List DramCall → BitVec 64 → BitVec 512)
    (m : DRAMBurstSplitter) : SplitterEvent → Option DRAMBurstSplitter
  | .rule rule => m.fire answer rule
  | .readReq i addr words => if i < rcnt then m.readReq rcnt i addr words else none
  | .read i => if i < rcnt then (m.read i).map Prod.snd else none
  | .writeReq i addr words => if i < wcnt then m.writeReq wcnt i addr words else none
  | .write i word => if i < wcnt then m.write wcnt i word else none

-----------------------------------------------------------------------------------------
-- What each rule and method does
-----------------------------------------------------------------------------------------

section Cases

variable {m m' : DRAMBurstSplitter}

theorem relayDramRead_cases (fires : m.relayDramRead = some m')
    : ∃ r mReader readerQ,
        m.mReader.items = r :: mReader.items
        ∧ readerQ.items = m.readerQ.items ++ [r]
        ∧ m' = { m with mReader, readerQ } := by
  obtain ⟨⟨r, mReader⟩, taken, fires⟩ := Option.bind_eq_some_iff.mp fires
  obtain ⟨readerQ, put, ⟨⟩⟩ := Option.bind_eq_some_iff.mp fires
  exact ⟨r, mReader, readerQ, MergeN.deq_items taken, (Fifo.enq_eq_some.mp put).2, rfl⟩

theorem relayDramWrite_cases (fires : m.relayDramWrite = some m')
    : ∃ r mWriter writerQ,
        m.mWriter.deq = some (r, mWriter)
        ∧ writerQ.items = m.writerQ.items ++ [r]
        ∧ m' = { m with mWriter, writerQ } := by
  obtain ⟨⟨r, mWriter⟩, taken, fires⟩ := Option.bind_eq_some_iff.mp fires
  obtain ⟨writerQ, put, ⟨⟩⟩ := Option.bind_eq_some_iff.mp fires
  exact ⟨r, mWriter, writerQ, taken, (Fifo.enq_eq_some.mp put).2, rfl⟩

theorem startDramWrite_cases (fires : m.startDramWrite = some m')
    : m.curReadCnt = 0 ∧ m.curWriteCnt = 0 ∧ m.ctl.writeWordLeft = 0 ∧ m.ctl.readWordLeft = 0
      ∧ ∃ r writerQ,
        m.writerQ.items = r :: writerQ.items
        ∧ m' = { m with
            writerQ
            ctl := { m.ctl with writeCurAddr := r.addr, writeWordLeft := r.words }
            curWriteCnt := r.words
            curClientIdx := r.idx } := by
  unfold startDramWrite at fires
  split at fires
  next idle =>
    obtain ⟨⟨r, writerQ⟩, taken, fires⟩ := Option.bind_eq_some_iff.mp fires
    obtain ⟨ctl, started, ⟨⟩⟩ := Option.bind_eq_some_iff.mp fires
    unfold DRAMBurstController.writeReq at started
    split at started
    next free =>
      cases started
      exact ⟨idle.1, idle.2, free.1, free.2, r, writerQ, Fifo.deq_eq_some.mp taken, rfl⟩
    next => cases started
  next => cases fires

theorem startDramRead_cases (fires : m.startDramRead = some m')
    : m.curReadCnt = 0 ∧ m.curWriteCnt = 0
      ∧ ∃ r readerQ,
        m.readerQ.items = r :: readerQ.items
        ∧ m' = { m with
            readerQ
            ctl := { m.ctl with readCurAddr := r.addr, readWordLeft := r.words }
            curReadCnt := r.words
            curClientIdx := r.idx } := by
  unfold startDramRead at fires
  split at fires
  next idle =>
    obtain ⟨⟨r, readerQ⟩, taken, fires⟩ := Option.bind_eq_some_iff.mp fires
    obtain ⟨ctl, started, ⟨⟩⟩ := Option.bind_eq_some_iff.mp fires
    unfold DRAMBurstController.readReq at started
    split at started
    next free =>
      cases started
      exact ⟨idle.1, idle.2, r, readerQ, Fifo.deq_eq_some.mp taken, rfl⟩
    next => cases started
  next => cases fires

theorem relayWriteC_cases (fires : m.relayWriteC = some m')
    : ∃ word writerM writerdQ,
        m.writerM.deq = some (word, writerM)
        ∧ writerdQ.items = m.writerdQ.items ++ [word]
        ∧ m' = { m with writerM, writerdQ, curCnt := m.curCnt - 1 } := by
  obtain ⟨⟨word, writerM⟩, taken, fires⟩ := Option.bind_eq_some_iff.mp fires
  obtain ⟨writerdQ, put, ⟨⟩⟩ := Option.bind_eq_some_iff.mp fires
  exact ⟨word, writerM, writerdQ, taken, (Fifo.enq_eq_some.mp put).2, rfl⟩

theorem relayWrite_cases (fires : m.relayWrite = some m')
    : 0 < m.curWriteCnt ∧ 0 < m.ctl.writeWordLeft
      ∧ ∃ d writerdQ,
        m.writerdQ.items = d :: writerdQ.items
        ∧ m' = { m with
            curWriteCnt := m.curWriteCnt - 1
            writerdQ
            ctl := { m.ctl with
              dram := m.ctl.dram.write m.ctl.writeCurAddr d
              writeCurAddr := m.ctl.writeCurAddr + 64
              writeWordLeft := m.ctl.writeWordLeft - 1 } } := by
  unfold relayWrite at fires
  split at fires
  next busy =>
    obtain ⟨⟨d, writerdQ⟩, taken, fires⟩ := Option.bind_eq_some_iff.mp fires
    obtain ⟨ctl, written, ⟨⟩⟩ := Option.bind_eq_some_iff.mp fires
    unfold DRAMBurstController.write at written
    split at written
    next more =>
      cases written
      exact ⟨busy.2, more, d, writerdQ, Fifo.deq_eq_some.mp taken, rfl⟩
    next => cases written
  next => cases fires

theorem relayRead_cases (fires : m.relayRead = some m')
    : 0 < m.curReadCnt
      ∧ ∃ d responses readerdQ,
        m.ctl.dram.responses = d :: responses
        ∧ readerdQ.items = m.readerdQ.items ++ [(m.curClientIdx, d)]
        ∧ m' = { m with
            curReadCnt := m.curReadCnt - 1
            ctl := { m.ctl with dram := { m.ctl.dram with responses } }
            readerdQ } := by
  unfold relayRead at fires
  split at fires
  next busy =>
    obtain ⟨⟨d, ctl⟩, read, fires⟩ := Option.bind_eq_some_iff.mp fires
    obtain ⟨readerdQ, put, ⟨⟩⟩ := Option.bind_eq_some_iff.mp fires
    obtain ⟨⟨d', dram⟩, taken, ⟨⟩⟩ := Option.bind_eq_some_iff.mp read
    unfold DramUser.read at taken
    split at taken
    next => cases taken
    next v responses first =>
      cases taken
      exact ⟨busy.1, _, responses, readerdQ, first, (Fifo.enq_eq_some.mp put).2, rfl⟩
  next => cases fires

theorem relayReadClient_cases (fires : m.relayReadClient = some m')
    : ∃ r readerdQ q,
        m.readerdQ.items = r :: readerdQ.items
        ∧ q.items = (m.readerQs r.1.toNat).items ++ [r.2]
        ∧ m' = { m with
            readerdQ
            curCnt := m.curCnt - 1
            readerQs := Function.update m.readerQs r.1.toNat q } := by
  obtain ⟨⟨r, readerdQ⟩, taken, fires⟩ := Option.bind_eq_some_iff.mp fires
  obtain ⟨q, put, ⟨⟩⟩ := Option.bind_eq_some_iff.mp fires
  exact ⟨r, readerdQ, q, Fifo.deq_eq_some.mp taken, (Fifo.enq_eq_some.mp put).2, rfl⟩

theorem dramReadReq_cases {answer : List DramCall → BitVec 64 → BitVec 512}
    (fires : m.fire answer .dramReadReq = some m')
    : 0 < m.ctl.readWordLeft
      ∧ m' = { m with ctl := { m.ctl with
          dram := m.ctl.dram.readReq answer m.ctl.readCurAddr
          readWordLeft := m.ctl.readWordLeft - 1
          readCurAddr := m.ctl.readCurAddr + 64 } } := by
  obtain ⟨ctl, called, ⟨⟩⟩ := Option.map_eq_some_iff.mp fires
  unfold DRAMBurstController.dramReadReq at called
  split at called
  next more =>
    cases called
    exact ⟨more, rfl⟩
  next => cases called

theorem readReq_cases {rcnt i : Nat} {addr : BitVec 64} {words : BitVec 32}
    (fires : m.readReq rcnt i addr words = some m')
    : m.curCnt = 0
      ∧ ∃ mReader,
        mReader.items.Perm (⟨addr, words, BitVec.ofNat 8 i⟩ :: m.mReader.items)
        ∧ m' = { m with mReader, curCnt := words } := by
  unfold readReq at fires
  split at fires
  next idle =>
    obtain ⟨mReader, put, ⟨⟩⟩ := Option.bind_eq_some_iff.mp fires
    exact ⟨idle, mReader, MergeN.enq_perm put, rfl⟩
  next => cases fires

theorem read_cases {i : Nat} {word : BitVec 512} (fires : m.read i = some (word, m'))
    : ∃ q,
        (m.readerQs i).items = word :: q.items
        ∧ m' = { m with readerQs := Function.update m.readerQs i q } := by
  obtain ⟨⟨_, q⟩, taken, ⟨⟩⟩ := Option.bind_eq_some_iff.mp fires
  exact ⟨q, Fifo.deq_eq_some.mp taken, rfl⟩

theorem writeReq_cases {wcnt i : Nat} {addr : BitVec 64} {words : BitVec 32}
    (fires : m.writeReq wcnt i addr words = some m')
    : m.curCnt = 0
      ∧ ∃ mWriter,
        mWriter.items.Perm (⟨addr, words, BitVec.ofNat 8 i⟩ :: m.mWriter.items)
        ∧ m' = { m with mWriter, curCnt := words } := by
  unfold writeReq at fires
  split at fires
  next idle =>
    obtain ⟨mWriter, put, ⟨⟩⟩ := Option.bind_eq_some_iff.mp fires
    exact ⟨idle, mWriter, MergeN.enq_perm put, rfl⟩
  next => cases fires

end Cases

end DRAMBurstSplitter

end BluespecPcie

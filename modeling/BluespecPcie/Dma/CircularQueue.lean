import BluespecPcie.Bluespec.Fifo
import BluespecPcie.Bluespec.Machine
import BluespecPcie.Dma.Tagged

/-! `mkDMACircularQueue` of DMACircularQueue.bsv and the host side of it in
dmacircularqueue.cpp.
-/

namespace BluespecPcie

open Bluespec

-----------------------------------------------------------------------------------------
-- The module
-----------------------------------------------------------------------------------------

/-- A queue into a ring of `2 ^ bufferSz` bytes in the DMA buffer. -/
structure DMACircularQueue (bufferSz : Nat) where
  writeByteCount : BitVec 32
  readByteCount : BitVec 32
  userWriteQ : Fifo IOWrite 2
  started : Bool
  cmdbuffer : Nat → BitVec 32
  cmdQ : Fifo (BitVec 128) 32
  enqSyncQ : Fifo (BitVec 256) 32
  enqQ : Fifo DMAWord 32
  enqCountUp : BitVec 8
  enqCountDown : BitVec 8
  dmaCountRemain : BitVec 8
  dmaCurTag : BitVec 8
  availWriteTagQ : Fifo (BitVec 8) 32
  availTagCounter : BitVec 8
  writeOffset : BitVec 32
  serializerBuffer : Option DMAWord

/-- The module after reset. -/
def mkDMACircularQueue (bufferSz : Nat) : DMACircularQueue bufferSz where
  writeByteCount := 0
  readByteCount := 0
  userWriteQ := .empty
  started := false
  cmdbuffer := fun _ => 0
  cmdQ := .empty
  enqSyncQ := .empty
  enqQ := .empty
  enqCountUp := 0
  enqCountDown := 0
  dmaCountRemain := 0
  dmaCurTag := 0
  availWriteTagQ := .empty
  availTagCounter := 0
  writeOffset := 0
  serializerBuffer := none

namespace DMACircularQueue

variable {bufferSz : Nat}

def getWriteReq (m : DMACircularQueue bufferSz) (d : IOWrite)
    : Option (DMACircularQueue bufferSz) := do
  let userWriteQ ← m.userWriteQ.enq d
  return { m with userWriteQ }

/-- Host words 0 to 3 are a command, word 16 starts the queue, word 17 counts what is read. -/
def procUserW (m : DMACircularQueue bufferSz) : Option (DMACircularQueue bufferSz) := do
  let (d, userWriteQ) ← m.userWriteQ.deq
  let m := { m with userWriteQ }
  if d.toffset = 0 then
    let cmdQ ← m.cmdQ.enq (m.cmdbuffer 3 ++ m.cmdbuffer 2 ++ m.cmdbuffer 1 ++ d.data)
    return { m with cmdQ }
  else if d.toffset < 4 then
    return { m with cmdbuffer := Function.update m.cmdbuffer d.toffset.toNat d.data }
  else if d.toffset = 16 then return { m with started := true }
  else if d.toffset = 17 then return { m with readByteCount := d.data }
  else return m

def fillAvailWriteTag (m : DMACircularQueue bufferSz) : Option (DMACircularQueue bufferSz) :=
  if m.availTagCounter < 32 then do
    let availWriteTagQ ← m.availWriteTagQ.enq m.availTagCounter
    return { m with availTagCounter := m.availTagCounter + 1, availWriteTagQ }
  else none

/-- A DMA write of 8 words is requested, with more than 8 words queued. -/
def initDMAWrite (m : DMACircularQueue bufferSz)
    : Option (DMACircularQueue bufferSz × Option DmaWriteCall) :=
  if m.dmaCountRemain = 0 ∧ 8 < m.enqCountUp - m.enqCountDown then do
    let (tag, availWriteTagQ) ← m.availWriteTagQ.deq
    let offset : BitVec bufferSz := m.writeOffset.setWidth bufferSz
    return ({ m with
      availWriteTagQ
      writeOffset := m.writeOffset + 128
      dmaCountRemain := 8
      dmaCurTag := tag },
      some (.dmaWriteReq (offset.setWidth 32) 8 tag))
  else none

/-- The tag of a burst is free again with its last word. -/
def freeTag (m : DMACircularQueue bufferSz) : Option (Fifo (BitVec 8) 32) :=
  if m.dmaCountRemain = 1 then m.availWriteTagQ.enq m.dmaCurTag else some m.availWriteTagQ

def dmaWriteWord (m : DMACircularQueue bufferSz)
    : Option (DMACircularQueue bufferSz × Option DmaWriteCall) :=
  if 0 < m.dmaCountRemain then do
    let (d, enqQ) ← m.enqQ.deq
    let availWriteTagQ ← m.freeTag
    return ({ m with
      dmaCountRemain := m.dmaCountRemain - 1
      enqCountDown := m.enqCountDown + 1
      enqQ
      availWriteTagQ },
      some (.dmaWriteData d m.dmaCurTag))
  else none

/-- A word of 16 bytes is admitted while the ring, as far as the host's count tells, is not full.
-/
def serializeEnq (m : DMACircularQueue bufferSz) : Option (DMACircularQueue bufferSz) :=
  if m.started = true ∧ m.writeByteCount - m.readByteCount < 1#32 <<< bufferSz then
    match m.serializerBuffer with
    | some up => do
        let enqQ ← m.enqQ.enq up
        return { m with
          writeByteCount := m.writeByteCount + 16
          enqCountUp := m.enqCountUp + 1
          enqQ
          serializerBuffer := none }
    | none => do
        let (d, enqSyncQ) ← m.enqSyncQ.deq
        let enqQ ← m.enqQ.enq (d.setWidth 128)
        return { m with
          writeByteCount := m.writeByteCount + 16
          enqCountUp := m.enqCountUp + 1
          enqSyncQ
          enqQ
          serializerBuffer := some ((d >>> 128).setWidth 128) }
  else none

def getCmd (m : DMACircularQueue bufferSz)
    : Option (BitVec 128 × DMACircularQueue bufferSz) := do
  let (cmd, cmdQ) ← m.cmdQ.deq
  return (cmd, { m with cmdQ })

def enq (m : DMACircularQueue bufferSz) (word : BitVec 256)
    : Option (DMACircularQueue bufferSz) := do
  let enqSyncQ ← m.enqSyncQ.enq word
  return { m with enqSyncQ }

end DMACircularQueue

-----------------------------------------------------------------------------------------
-- The module and the host
-----------------------------------------------------------------------------------------

/-- The module over an interface, with the host: its count of bytes read, its writes that the
device has not received, and how many stored words have landed in the ring.
-/
structure CircularSystem (P : TaggedDma) (bufferSz : Nat) where
  queue : DMACircularQueue bufferSz
  pcie : P.State
  readBytes : BitVec 32
  io : List IOWrite
  landed : Nat

/-- What can happen: the rules of the module, steps of the interface, a stored word lands, and
calls of the user and of the host.
-/
inductive CircularEvent where
  | getWriteReq
  | procUserW
  | fillAvailWriteTag
  | initDMAWrite
  | dmaWriteWord
  | serializeEnq
  | pcie
  | land
  | getCmd
  | enq (word : BitVec 256)
  | deq (bytes : BitVec 32)
  | userWriteWord (addr : BitVec 20) (data : BitVec 32)

namespace CircularSystem

variable {P : TaggedDma} {bufferSz : Nat}

/-- After reset, before the host's `DMACircularQueue` is constructed. -/
def init (P : TaggedDma) (bufferSz : Nat) : CircularSystem P bufferSz where
  queue := mkDMACircularQueue bufferSz
  pcie := P.init
  readBytes := 0
  io := []
  landed := 0

/-- What a rule does, with the call it makes. -/
def call (s : CircularSystem P bufferSz)
    (done : Option (DMACircularQueue bufferSz × Option DmaWriteCall))
    : Option (CircularSystem P bufferSz) := do
  let (queue, call) ← done
  let pcie ← P.accept s.pcie call
  return { s with queue, pcie }

/-- The next write of the host is received. -/
def getWriteReq (s : CircularSystem P bufferSz) : Option (CircularSystem P bufferSz) :=
  match s.io with
  | [] => none
  | d :: io => (s.queue.getWriteReq d).map (fun queue => { s with queue, io })

/-- One event. The host's `deq` adds to its count and writes it to word 17; its constructor
writes word 16.
-/
def step (s : CircularSystem P bufferSz) : CircularEvent → Option (CircularSystem P bufferSz)
  | .getWriteReq => s.getWriteReq
  | .procUserW => s.queue.procUserW.map (fun queue => { s with queue })
  | .fillAvailWriteTag => s.queue.fillAvailWriteTag.map (fun queue => { s with queue })
  | .initDMAWrite => s.call s.queue.initDMAWrite
  | .dmaWriteWord => s.call s.queue.dmaWriteWord
  | .serializeEnq => s.queue.serializeEnq.map (fun queue => { s with queue })
  | .pcie => (P.internal s.pcie).map (fun pcie => { s with pcie })
  | .land =>
      if s.landed < (P.stores s.pcie).length then some { s with landed := s.landed + 1 } else none
  | .getCmd => s.queue.getCmd.map (fun cmd => { s with queue := cmd.2 })
  | .enq word => (s.queue.enq word).map (fun queue => { s with queue })
  | .deq bytes =>
      some { s with
        readBytes := s.readBytes + bytes
        io := s.io ++ [⟨17 * 4, s.readBytes + bytes⟩] }
  | .userWriteWord addr data => some { s with io := s.io ++ [⟨addr, data⟩] }

end CircularSystem

/-- The words the user enqueued and the bytes the host dequeued. -/
structure CircularLog where
  enqueued : List (BitVec 256) := []
  dequeued : Nat := 0

namespace CircularLog

variable {P : TaggedDma} {bufferSz : Nat}

/-- How an event extends the history. -/
def record (_ : CircularSystem P bufferSz) (e : CircularEvent) (log : CircularLog)
    : CircularLog :=
  match e with
  | .enq word => { log with enqueued := log.enqueued ++ [word] }
  | .deq bytes => { log with dequeued := log.dequeued + bytes.toNat }
  | _ => log

/-- The host dequeues bytes that have landed, and writes its count in `deq` only. -/
def Proper (s : CircularSystem P bufferSz × CircularLog) : CircularEvent → Prop
  | .deq bytes => s.2.dequeued + bytes.toNat ≤ 16 * s.1.landed
  | .userWriteWord addr data => (IOWrite.mk addr data).toffset ≠ 17
  | _ => True

end CircularLog

end BluespecPcie

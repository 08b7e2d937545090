import BluespecPcie.Host.ShmFifo
import BluespecPcie.PcieCtrl.Types

/-! The Bluesim engine: PcieCtrl_bsim.bsv over the shared memory of PcieBdpi.cpp, and the BLUESIM
branches of bdbmpcie.cpp.

A rule or a method of the simulator is one event, and so is a call of `ShmFifo` by the software.
-/

namespace BluespecPcie

open Bluespec

-----------------------------------------------------------------------------------------
-- The shared memory
-----------------------------------------------------------------------------------------

/-- `DMA_BUFFER_SIZE`. -/
def dma_buffer_size : Nat := 1024 * 1024 * 4

/-- The queues behind the DMA buffer, by the simulator's names; in and out are reversed in the
software.
-/
inductive ShmPort where
  | outfifo
  | infifo
  | interruptfifo
deriving DecidableEq

/-- What simulator and software do with the memory they share: the methods of its queues, and loads
and stores of the 64-bit words `llptr[i]`.
-/
structure SharedMemory (μ : Type) where
  push : ShmPort → μ → BitVec 64 → μ
  pop : ShmPort → μ → μ
  tail : ShmPort → μ → BitVec 64
  empty : ShmPort → μ → Bool
  full : ShmPort → μ → Bool
  load : μ → Nat → BitVec 64
  store : μ → Nat → BitVec 64 → μ

/-- The words from `base` on. -/
def ShmWords.behind (base : Nat) (m : ShmWords) : ShmWords := fun i => m (base + i)

/-- A method of an object that was constructed on the words from `base` on. -/
def ShmWords.change (base : Nat) (f : ShmWords → ShmWords) (m : ShmWords) : ShmWords :=
  fun i => if i < base then m i else f (m.behind base) (i - base)

/-- Where the words of a queue start. -/
def ShmPort.base : ShmPort → Nat
  | .outfifo => dma_buffer_size / 8
  | .infifo => dma_buffer_size / 8 + 1024
  | .interruptfifo => dma_buffer_size / 8 + 1024 * 2

/-- The shared memory as one array of words, with `ShmFifo` objects of 1024 words. -/
def shmWords : SharedMemory ShmWords where
  push port m v := m.change port.base (fun m => ShmFifo.push (ShmFifo.slots 1024) m v)
  pop port m := m.change port.base (ShmFifo.pop (ShmFifo.slots 1024))
  tail port m := ShmFifo.tail (m.behind port.base)
  empty port m := ShmFifo.empty (m.behind port.base)
  full port m := ShmFifo.full (ShmFifo.slots 1024) (m.behind port.base)
  load m i := m i
  store m i v := Function.update m i v

/-- The three objects that `shmReady` constructs, and `Init_Bluesim` once more. -/
def ShmWords.construct (m : ShmWords) : ShmWords :=
  ((m.change ShmPort.outfifo.base ShmFifo.construct).change ShmPort.infifo.base
    ShmFifo.construct).change ShmPort.interruptfifo.base ShmFifo.construct

-----------------------------------------------------------------------------------------
-- Words, DWs and bytes of the buffer
-----------------------------------------------------------------------------------------

/-- A word with byte `k` replaced. -/
def withByte (word : BitVec 64) (k : Nat) (b : BitVec 8) : BitVec 64 :=
  (word &&& ~~~(0xff#64 <<< (8 * k))) ||| (b.setWidth 64 <<< (8 * k))

namespace SharedMemory

variable {μ : Type} (mem : SharedMemory μ)

/-- `lptr[i]`, a half of a word. -/
def load32 (m : μ) (i : Nat) : BitVec 32 := (mem.load m (i / 2)).extractLsb' (32 * (i % 2)) 32

/-- A store of the byte at `i`. -/
def store8 (m : μ) (i : Nat) (b : BitVec 8) : μ :=
  mem.store m (i / 8) (withByte (mem.load m (i / 8)) (i % 8) b)

-----------------------------------------------------------------------------------------
-- PcieBdpi.cpp
-----------------------------------------------------------------------------------------

def bdpiDmaWriteData (m : μ) (addr : BitVec 32) (data1 data2 : BitVec 64) : μ :=
  mem.store (mem.store m (addr >>> 3).toNat data1) ((addr >>> 3) + 1).toNat data2

/-- The next message of the software, or one with only its top bit set. -/
def bdpiIOData (m : μ) : BitVec 64 × μ :=
  if mem.empty .infifo m then (1#64 <<< (32 + 31), m)
  else (mem.tail .infifo m, mem.pop .infifo m)

def bdpiIOReadRespReady (m : μ) : Bool := !mem.full .outfifo m

def bdpiIOReadResp (m : μ) (dat : BitVec 64) : μ :=
  if mem.full .outfifo m then m else mem.push .outfifo m dat

def bdpiInterruptReady (m : μ) : Bool := !mem.full .interruptfifo m

def bdpiAssertInterrupt (m : μ) : μ :=
  if mem.full .interruptfifo m then m else mem.push .interruptfifo m 0

end SharedMemory

/-- The variables of PcieBdpi.cpp for the read under way. -/
structure DmaRead where
  dmaReadStartAddr : BitVec 32
  dmaReadWordsRemain : BitVec 32
  dmaReadWordsOffset : BitVec 32
deriving DecidableEq

def bdpiDmaReadReq (addr : BitVec 32) (words : BitVec 10) : DmaRead where
  dmaReadStartAddr := addr
  dmaReadWordsRemain := words.setWidth 32 * 4
  dmaReadWordsOffset := 0

def bdpiDmaReadReady (r : DmaRead) : Bool := r.dmaReadWordsRemain > 0

def SharedMemory.bdpiDmaReadData {μ : Type} (mem : SharedMemory μ) (m : μ) (r : DmaRead)
    : BitVec 32 × DmaRead :=
  (mem.load32 m ((r.dmaReadStartAddr >>> 2) + r.dmaReadWordsOffset).toNat,
    { r with
      dmaReadWordsRemain := r.dmaReadWordsRemain - 1
      dmaReadWordsOffset := r.dmaReadWordsOffset + 1 })

-----------------------------------------------------------------------------------------
-- The software
-----------------------------------------------------------------------------------------

/-- The message of `writeWord`. -/
def writeMessage (addr data : BitVec 32) : BitVec 64 :=
  data.setWidth 64 ||| (1#64 <<< (32 + 24)) ||| (addr.setWidth 64 <<< 32)

/-- The message of `readWord`. -/
def readMessage (addr : BitVec 32) : BitVec 64 := addr.setWidth 64 <<< 32

/-- Where the software is: between calls, waiting for room for a message or about to push it, and
for a read (which keeps its address) waiting for the answer, looking at it or about to pop it; or in
`waitInterrupt`.
-/
inductive SoftwareCall where
  | idle
  | full (d : BitVec 64) (reads : Option (BitVec 32))
  | push (d : BitVec 64) (reads : Option (BitVec 32))
  | empty (addr : BitVec 32)
  | tail (addr : BitVec 32)
  | pop (addr : BitVec 32) (data : BitVec 64)
  | interruptEmpty
  | interruptPop
deriving DecidableEq

-----------------------------------------------------------------------------------------
-- The simulated engine
-----------------------------------------------------------------------------------------

/-- The registers and queues of `mkPcieCtrl_bsim`. -/
structure PcieCtrlBsim where
  dmaWriteWordCount : BitVec 10
  dmaWriteWordAddr : BitVec 32
  dmaWriteWordOff : BitVec 32
  dmaReadWordCount : BitVec 10
  dmaReadWordQ : Fifo DMAWord 16
  dmaReadBuffer : DMAWord
  dmaReadBufferOff : BitVec 8
  ioWriteQ : Fifo IOWrite 2
  ioReadReqQ : Fifo IOReadReq 2
  ioReadReqReturnQ : Fifo IOReadReq 2
  ioReadReqDataQ : Fifo (BitVec 32) 2

/-- The module after reset. -/
def mkPcieCtrl_bsim : PcieCtrlBsim where
  dmaWriteWordCount := 0
  dmaWriteWordAddr := 0
  dmaWriteWordOff := 0
  dmaReadWordCount := 0
  dmaReadWordQ := .empty
  dmaReadBuffer := 0
  dmaReadBufferOff := 0
  ioWriteQ := .empty
  ioReadReqQ := .empty
  ioReadReqReturnQ := .empty
  ioReadReqDataQ := .empty

/-- Software and simulator over their memory. -/
structure Bluesim (μ : Type) where
  memory : μ
  call : SoftwareCall
  dma : DmaRead
  hw : PcieCtrlBsim

/-- What can happen: a call of the software, its next use of a queue, a store of a byte to the DMA
buffer; the rules of the engine; and the methods called by the user's logic.
-/
inductive BluesimEvent where
  | writeWord (addr data : BitVec 32)
  | readWord (addr : BitVec 32)
  | waitInterrupt
  | software
  | storeByte (i : Nat) (b : BitVec 8)
  | receiveDmaRead
  | receiveIo
  | relayIOReadResp
  | dataReceive
  | dataReq
  | dataSend (ioreq : IOReadReq) (data : BitVec 32)
  | dmaWriteReq (addr : BitVec 32) (words : BitVec 10)
  | dmaWriteData (data : DMAWord)
  | dmaReadReq (addr : BitVec 32) (words : BitVec 10)
  | dmaReadWord
  | assertInterrupt
deriving DecidableEq

namespace Bluesim

variable {μ : Type} (mem : SharedMemory μ) (s : Bluesim μ)

/-- A call starts between calls. -/
def starts (call : SoftwareCall) : Option (Bluesim μ) :=
  if s.call = .idle then some { s with call } else none

/-- The next use of a queue in the call under way. -/
def software : Option (Bluesim μ) :=
  match s.call with
  | .idle => none
  | .full d reads =>
      if mem.full .infifo s.memory then some s else some { s with call := .push d reads }
  | .push d reads =>
      some { s with
        memory := mem.push .infifo s.memory d
        call := match reads with
          | none => .idle
          | some addr => .empty addr }
  | .empty addr =>
      if mem.empty .outfifo s.memory then some s else some { s with call := .tail addr }
  | .tail addr => some { s with call := .pop addr (mem.tail .outfifo s.memory) }
  | .pop _ _ => some { s with memory := mem.pop .outfifo s.memory, call := .idle }
  | .interruptEmpty =>
      if mem.empty .interruptfifo s.memory then some { s with call := .idle }
      else some { s with call := .interruptPop }
  | .interruptPop =>
      some { s with memory := mem.pop .interruptfifo s.memory, call := .interruptEmpty }

def receiveDmaRead : Option (Bluesim μ) :=
  if s.hw.dmaReadWordCount > 0 then
    if bdpiDmaReadReady s.dma then
      let (d, dma) := mem.bdpiDmaReadData s.memory s.dma
      let word := d ++ s.hw.dmaReadBuffer.extractLsb 127 32
      if s.hw.dmaReadBufferOff ≥ 3 then do
        let dmaReadWordQ ← s.hw.dmaReadWordQ.enq word
        some { s with
          dma
          hw := { s.hw with
            dmaReadWordCount := s.hw.dmaReadWordCount - 1, dmaReadWordQ, dmaReadBufferOff := 0 } }
      else
        some { s with
          dma
          hw := { s.hw with
            dmaReadBuffer := word, dmaReadBufferOff := s.hw.dmaReadBufferOff + 1 } }
    else some s
  else none

/-- `receiveIo`. What it does depends on the message it takes, so it waits for room in both queues.
-/
def receiveIo : Option (Bluesim μ) :=
  if s.hw.ioWriteQ.items.length < 2 ∧ s.hw.ioReadReqQ.items.length < 2 then
    let (d, memory) := mem.bdpiIOData s.memory
    let data : BitVec 32 := d.truncate 32
    let addr : BitVec 20 := (d >>> 32).truncate 20
    let write : BitVec 1 := (d >>> (32 + 24)).truncate 1
    let notready : BitVec 1 := (d >>> (32 + 31)).truncate 1
    if notready = 0#1 then
      if write = 1#1 then
        if addr ≥ io_userspace_offset then do
          let ioWriteQ ← s.hw.ioWriteQ.enq { addr := addr - io_userspace_offset, data }
          some { s with memory, hw := { s.hw with ioWriteQ } }
        else some { s with memory }
      else if addr ≥ io_userspace_offset then do
        let ioReadReqQ ← s.hw.ioReadReqQ.enq
          { (default : IOReadReq) with addr := addr - io_userspace_offset }
        some { s with memory, hw := { s.hw with ioReadReqQ } }
      else some { s with memory := mem.bdpiIOReadResp memory (0#12 ++ addr ++ 0xc001d00d#32) }
    else some { s with memory }
  else none

def relayIOReadResp : Option (Bluesim μ) := do
  let (ioreq, ioReadReqReturnQ) ← s.hw.ioReadReqReturnQ.deq
  let (data, ioReadReqDataQ) ← s.hw.ioReadReqDataQ.deq
  if mem.bdpiIOReadRespReady s.memory then
    some { s with
      memory := mem.bdpiIOReadResp s.memory (0#12 ++ (ioreq.addr + io_userspace_offset) ++ data)
      hw := { s.hw with ioReadReqReturnQ, ioReadReqDataQ } }
  else some s

def dataReceive : Option (Bluesim μ) := do
  let (_, ioWriteQ) ← s.hw.ioWriteQ.deq
  some { s with hw := { s.hw with ioWriteQ } }

def dataReq : Option (Bluesim μ) := do
  let (_, ioReadReqQ) ← s.hw.ioReadReqQ.deq
  some { s with hw := { s.hw with ioReadReqQ } }

def dataSend (ioreq : IOReadReq) (data : BitVec 32) : Option (Bluesim μ) := do
  let ioReadReqReturnQ ← s.hw.ioReadReqReturnQ.enq ioreq
  let ioReadReqDataQ ← s.hw.ioReadReqDataQ.enq data
  some { s with hw := { s.hw with ioReadReqReturnQ, ioReadReqDataQ } }

def dmaWriteReq (addr : BitVec 32) (words : BitVec 10) : Option (Bluesim μ) :=
  if s.hw.dmaWriteWordCount = 0 then
    some { s with
      hw := { s.hw with
        dmaWriteWordCount := words, dmaWriteWordAddr := addr, dmaWriteWordOff := 0 } }
  else none

def dmaWriteData (data : DMAWord) : Option (Bluesim μ) :=
  if s.hw.dmaWriteWordCount > 0 then
    some { s with
      memory := mem.bdpiDmaWriteData s.memory (s.hw.dmaWriteWordAddr + s.hw.dmaWriteWordOff)
        (data.truncate 64) ((data >>> 64).truncate 64)
      hw := { s.hw with
        dmaWriteWordOff := s.hw.dmaWriteWordOff + 16
        dmaWriteWordCount := s.hw.dmaWriteWordCount - 1 } }
  else none

def dmaReadReq (addr : BitVec 32) (words : BitVec 10) : Option (Bluesim μ) :=
  if s.hw.dmaReadWordCount = 0 then
    some { s with dma := bdpiDmaReadReq addr words, hw := { s.hw with dmaReadWordCount := words } }
  else none

def dmaReadWord : Option (Bluesim μ) := do
  let (_, dmaReadWordQ) ← s.hw.dmaReadWordQ.deq
  some { s with hw := { s.hw with dmaReadWordQ } }

def assertInterrupt : Option (Bluesim μ) :=
  if mem.bdpiInterruptReady s.memory then
    some { s with memory := mem.bdpiAssertInterrupt s.memory }
  else none

/-- One event; `none` when it cannot happen. -/
def step : BluesimEvent → Option (Bluesim μ)
  | .writeWord addr data => s.starts (.full (writeMessage addr data) none)
  | .readWord addr => s.starts (.full (readMessage addr) (some addr))
  | .waitInterrupt => s.starts .interruptEmpty
  | .software => s.software mem
  | .storeByte i b =>
      if s.call = .idle then some { s with memory := mem.store8 s.memory i b } else none
  | .receiveDmaRead => s.receiveDmaRead mem
  | .receiveIo => s.receiveIo mem
  | .relayIOReadResp => s.relayIOReadResp mem
  | .dataReceive => s.dataReceive
  | .dataReq => s.dataReq
  | .dataSend ioreq data => s.dataSend ioreq data
  | .dmaWriteReq addr words => s.dmaWriteReq addr words
  | .dmaWriteData data => s.dmaWriteData mem data
  | .dmaReadReq addr words => s.dmaReadReq addr words
  | .dmaReadWord => s.dmaReadWord
  | .assertInterrupt => s.assertInterrupt mem

/-- Both sides have constructed their objects over memory `m`, and nothing else has happened. -/
def reset (memory : μ) : Bluesim μ where
  memory
  call := .idle
  dma := { dmaReadStartAddr := 0, dmaReadWordsRemain := 0, dmaReadWordsOffset := 0 }
  hw := mkPcieCtrl_bsim

end Bluesim

/-- Simulation on a new shared memory object, which is all zeros: the simulator constructs its
objects, then the software its own.
-/
def bluesim : Bluesim ShmWords :=
  .reset (ShmWords.construct (ShmWords.construct (fun _ => 0)))

end BluespecPcie

import Mathlib.Algebra.Order.Ring.Nat
import Mathlib.Data.BitVec
import Mathlib.Tactic.Common

/-! Types, constants and TLP layouts of PcieCtrl.bsv. -/

namespace BluespecPcie

structure IOReadReq where
  requesterID : BitVec 16
  tag : BitVec 8
  addr : BitVec 20
  tc : BitVec 3
  td : BitVec 1
  ep : BitVec 1
  attr : BitVec 2
deriving DecidableEq, Inhabited

/-- One 128-bit beat on the way to `sendData`/`sendKeep`/`sendLast`. -/
structure SendTLP where
  tlp : BitVec 128
  keep : BitVec 16
  last : BitVec 1
deriving DecidableEq, Inhabited

structure IOWrite where
  addr : BitVec 20
  data : BitVec 32
deriving DecidableEq, Inhabited

structure DMAReq where
  addr : BitVec 32
  words : BitVec 10
  tag : BitVec 8
deriving DecidableEq, Inhabited

abbrev DMAWord := BitVec 128

structure DMAWordTagged where
  word : DMAWord
  tag : BitVec 8
deriving DecidableEq, Inhabited

/-- `IoUserSpaceOffset`, where the user region of BAR0 starts. -/
def io_userspace_offset : BitVec 20 := 16384#20

/-- `DMABufOffset`, the byte offset of the first bus address in the configuration buffer. -/
def dma_buf_offset : Nat := 32

/-- `DMAMaxWords`, the most 128-bit words one memory TLP asks for or carries. -/
def dma_max_words : BitVec 10 := 8#10

def type_rd32_io : BitVec 7 := 0b0000010#7
def type_rd32_mem : BitVec 7 := 0b0000000#7
def type_wr32_io : BitVec 7 := 0b1000010#7
def type_wr32_mem : BitVec 7 := 0b1000000#7
def type_completionn : BitVec 7 := 0b0001010#7
def type_completionn4 : BitVec 7 := 0b0101010#7
def type_completion : BitVec 7 := 0b1001010#7
def type_completion4 : BitVec 7 := 0b1101010#7

/-- The test `filterStatReadTLP` and `procTLP` make for a read request. -/
def isRead (ptype : BitVec 7) : Bool :=
  ptype == type_rd32_io || ptype == type_rd32_mem

/-- The test `procTLP` makes for a write request. -/
def isWrite (ptype : BitVec 7) : Bool :=
  ptype == type_wr32_io || ptype == type_wr32_mem

/-- The test `filterStatReadTLP` makes for a completion. -/
def isCompletion (ptype : BitVec 7) : Bool :=
  ptype == type_completion || ptype == type_completion4
    || ptype == type_completionn || ptype == type_completionn4

def reverseEndian (d : BitVec 32) : BitVec 32 :=
  d.extractLsb 7 0 ++ d.extractLsb 15 8 ++ d.extractLsb 23 16 ++ d.extractLsb 31 24

-----------------------------------------------------------------------------------------
-- Fields of a received header beat
-----------------------------------------------------------------------------------------

/-- DW `i` of a beat. -/
def dword (tlp : BitVec 128) (i : Nat) : BitVec 32 := tlp.extractLsb' (32 * i) 32

def tlpType (tlp : BitVec 128) : BitVec 7 := tlp.extractLsb 30 24
def tlpLength (tlp : BitVec 128) : BitVec 10 := tlp.extractLsb 9 0
def tlpAttr (tlp : BitVec 128) : BitVec 2 := tlp.extractLsb 13 12
def tlpTd (tlp : BitVec 128) : BitVec 1 := tlp.extractLsb 15 15
def tlpEp (tlp : BitVec 128) : BitVec 1 := tlp.extractLsb 14 14
def tlpTc (tlp : BitVec 128) : BitVec 3 := tlp.extractLsb 22 20

/-- Tag of a request header, `tlp[15+32:8+32]`. -/
def requestTag (tlp : BitVec 128) : BitVec 8 := tlp.extractLsb 47 40

/-- Requester ID of a request header, `tlp[31+32:16+32]`. -/
def requesterID (tlp : BitVec 128) : BitVec 16 := tlp.extractLsb 63 48

/-- Address of a request header, `{tlp[31+64:2+64],2'b00}`. -/
def requestAddr (tlp : BitVec 128) : BitVec 32 := tlp.extractLsb 95 66 ++ 0#2

/-- Tag of a completion header, `tlp[15+64:8+64]`. -/
def completionTag (tlp : BitVec 128) : BitVec 8 := tlp.extractLsb 79 72

-----------------------------------------------------------------------------------------
-- TLPs the engine builds
-----------------------------------------------------------------------------------------

/-- `{cdw3,cdw2,cdw1,cdw0}`. -/
def packDWs (cdw3 cdw2 cdw1 cdw0 : BitVec 32) : BitVec 128 := cdw3 ++ cdw2 ++ cdw1 ++ cdw0

/-- The completion with one DW of data that answers a 32-bit read. -/
def completionTLP (completer rid : BitVec 16) (tag : BitVec 8) (tc : BitVec 3)
    (td ep : BitVec 1) (attr : BitVec 2) (lower : BitVec 7) (data : BitVec 32) : SendTLP :=
  let cdw0 : BitVec 32 :=
    0#1 ++ 0b10#2 ++ 0xa#5 ++ 0#1 ++ tc ++ 0#4 ++ td ++ ep ++ attr ++ 0#2 ++ 1#10
  let cdw1 : BitVec 32 := completer ++ 0#4 ++ 4#12
  let cdw2 : BitVec 32 := rid ++ tag ++ 0#1 ++ lower
  { tlp := packDWs (reverseEndian data) cdw2 cdw1 cdw0, keep := 0xffff#16, last := 1#1 }

/-- The completion without data that `procIOWrite` sends for an I/O write. -/
def writeCompletionTLP (completer rid : BitVec 16) (tag : BitVec 8) (lower : BitVec 7)
    : SendTLP :=
  let cdw0 : BitVec 32 :=
    0#1 ++ 0b00#2 ++ 0xa#5 ++ 0#1 ++ 0#3 ++ 0#4 ++ 0#1 ++ 0#1 ++ 0#2 ++ 0#2 ++ 1#10
  let cdw1 : BitVec 32 := completer ++ 0#4 ++ 0#12
  let cdw2 : BitVec 32 := rid ++ tag ++ 0#1 ++ lower
  { tlp := packDWs 0#32 cdw2 cdw1 cdw0, keep := 0x0fff#16, last := 1#1 }

/-- The header DWs 0, 1 and 2 of a memory request for `words` 128-bit words; `fmt` is
`2'b10` for a write and `2'b00` for a read.
-/
def memoryHeader (fmt : BitVec 2) (completer : BitVec 16) (tag : BitVec 8)
    (dmaAddr : BitVec 32) (words : BitVec 10) : BitVec 32 × BitVec 32 × BitVec 32 :=
  (0#1 ++ fmt ++ 0#5 ++ 0#1 ++ 0#3 ++ 0#4 ++ 0#1 ++ 0#1 ++ 0#2 ++ 0#2 ++ (words <<< 2),
    completer ++ tag ++ 0xf#4 ++ 0xf#4,
    (dmaAddr >>> 2).truncate 30 ++ 0#2)

/-- The read request TLP of `generateDmaReadTLP`. -/
def readRequestTLP (completer : BitVec 16) (tag : BitVec 8) (dmaAddr : BitVec 32)
    (words : BitVec 10) : SendTLP :=
  let (cdw0, cdw1, cdw2) := memoryHeader 0b00#2 completer tag dmaAddr words
  { tlp := packDWs 0#32 cdw2 cdw1 cdw0, keep := 0x0fff#16, last := 1#1 }

/-- The first beat of a memory write: the header and the first DW of the first word. -/
def writeHeaderTLP (completer : BitVec 16) (tag : BitVec 8) (dmaAddr : BitVec 32)
    (words : BitVec 10) (data : DMAWord) : SendTLP :=
  let (cdw0, cdw1, cdw2) := memoryHeader 0b10#2 completer tag dmaAddr words
  { tlp := packDWs (reverseEndian (data.truncate 32)) cdw2 cdw1 cdw0
    keep := 0xffff#16, last := 0#1 }

/-- A payload beat carrying the four DWs of `data`. -/
def writeDataTLP (data : DMAWord) (keep : BitVec 16) (last : BitVec 1) : SendTLP :=
  { tlp := packDWs (reverseEndian (data.extractLsb 127 96))
      (reverseEndian (data.extractLsb 95 64)) (reverseEndian (data.extractLsb 63 32))
      (reverseEndian (data.extractLsb 31 0))
    keep, last }

end BluespecPcie

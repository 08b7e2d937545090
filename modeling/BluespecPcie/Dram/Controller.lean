import BluespecPcie.Bluespec.Machine
import BluespecPcie.Shifter

/-! `mkDRAMController` of DRAMController.bsv over an in-order DDR3 with byte enables. -/

namespace BluespecPcie

open Bluespec

-----------------------------------------------------------------------------------------
-- The DDR3
-----------------------------------------------------------------------------------------

/-- A request to the DDR3; it is a read when `writeen` is 0. -/
structure DDRRequest where
  writeen : BitVec 64
  address : BitVec 64
  datain : BitVec 512
deriving DecidableEq, Inhabited

/-- The bit mask of the byte enables below byte `n`. -/
def byteMask (writeen : BitVec 64) : Nat → BitVec 512
  | 0 => 0#512
  | n + 1 =>
      if writeen.getLsbD n then byteMask writeen n ||| (0xff#512 <<< (8 * n))
      else byteMask writeen n

/-- `new_masked | old_masked`: the enabled bytes of the new row over the old one. -/
def mergeBytes (writeen : BitVec 64) (datain old : BitVec 512) : BitVec 512 :=
  (byteMask writeen 64 &&& datain) ||| (~~~byteMask writeen 64 &&& old)

/-- Rows of eight 64-bit words, by row index. -/
abbrev Rows := BitVec 25 → BitVec 512

/-- The row a request addresses: `truncate(addr)` to 28 bits of word address, over 8. The
controller addresses whole rows only.
-/
def DDRRequest.row (r : DDRRequest) : BitVec 25 := r.address.extractLsb' 3 25

/-- The rows after a request. -/
def DDRRequest.apply (r : DDRRequest) (rows : Rows) : Rows :=
  if r.writeen = 0#64 then rows
  else Function.update rows r.row (mergeBytes r.writeen r.datain (rows r.row))

/-- The response to a request, if it is a read. -/
def DDRRequest.response (r : DDRRequest) (rows : Rows) : Option (BitVec 512) :=
  if r.writeen = 0#64 then some (rows r.row) else none

/-- A DDR3 that serves its requests in order, each at some time after it was accepted. -/
structure Ddr3 where
  rows : Rows
  pending : List DDRRequest
  responses : List (BitVec 512)

/-- Serving the oldest request. -/
def Ddr3.serve (d : Ddr3) : Option Ddr3 :=
  match d.pending with
  | [] => none
  | r :: pending => some {
      rows := r.apply d.rows
      pending
      responses := d.responses ++ (r.response d.rows).toList }

-----------------------------------------------------------------------------------------
-- The controller
-----------------------------------------------------------------------------------------

structure DRAMWrRequest where
  nBytes : BitVec 7
  addr : BitVec 64
  data : BitVec 512
  mask0 : BitVec 64
  mask1 : BitVec 64
deriving DecidableEq, Inhabited

structure DRAMRdRequest where
  nBytes : BitVec 7
  addr : BitVec 64
deriving DecidableEq, Inhabited

/-- `{bankaddr, rowaddr, coladdr, offset}` with `rowaddr = {v[29:21], v[17:13]}`,
`bankaddr = v[20:18]`, `coladdr = v[12:3]` and `offset = v[2:0]`.
-/
def addrReMapping (v : BitVec 64) : BitVec 64 :=
  (v.extractLsb 20 18 ++ (v.extractLsb 29 21 ++ v.extractLsb 17 13) ++ v.extractLsb 12 3
    ++ v.extractLsb 2 0).zeroExtend 64

/-- The state of `mkDRAMController`, both clock domains. -/
structure DRAMController where
  reqs : Fifo DDRRequest 32
  respSyncQ : Fifo (BitVec 512) 32
  resps : Fifo (BitVec 512) 64
  dramWrCmdQ : Fifo DRAMWrRequest 2
  dramRdCmdQ : Fifo DRAMRdRequest 2
  readOffsetQ : Fifo (Bool × BitVec 6) 64
  nextRowW : Bool
  nextCmdTypeQ : Fifo Bool 2
  nextRowR : Bool
  rightSft : CombinationalRightShifter 1024 6
  reqCountUp : BitVec 7
  reqCountDown : BitVec 7
  readCache : BitVec 512

/-- The controller with the DDR3 it drives. -/
structure DramSystem where
  ctl : DRAMController
  ddr3 : Ddr3

/-- `maxReadReqs`. -/
def max_read_reqs : BitVec 7 := 64#7

/-- The bytes from the offset of `addr` to the end of its row. -/
def firstNbytes (addr : BitVec 64) : BitVec 7 := 64#7 - (addr.extractLsb 5 0).zeroExtend 7

/-- The request of `driverWrie` for the first row of a write. -/
def DRAMWrRequest.firstRow (v : DRAMWrRequest) : DDRRequest where
  writeen := v.mask0
  address := v.addr >>> 6 <<< 3
  datain := v.data <<< (v.addr.extractLsb 5 0 ++ 0#3)

/-- The request of `driverWrie` for the next row. -/
def DRAMWrRequest.nextRow (v : DRAMWrRequest) : DDRRequest where
  writeen := v.mask1
  address := (v.addr >>> 6 + 1) <<< 3
  datain := v.data >>> (~~~v.addr.extractLsb 5 0 + 1 ++ 0#3)

/-- The request of `driverReadC` for the first row of a read; `datain` is unspecified. -/
def DRAMRdRequest.firstRow (v : DRAMRdRequest) : DDRRequest where
  writeen := 0#64
  address := v.addr >>> 6 <<< 3
  datain := 0#512

/-- The request of `driverReadC` for the next row. -/
def DRAMRdRequest.nextRow (v : DRAMRdRequest) : DDRRequest where
  writeen := 0#64
  address := (v.addr >>> 6 + 1) <<< 3
  datain := 0#512

/-- The command method `write` enqueues. -/
def writeCommand (addr : BitVec 64) (data : BitVec 512) (bytes : BitVec 7) : DRAMWrRequest :=
  let offset : BitVec 6 := addr.extractLsb 5 0
  let mask : BitVec 64 := (1#64 <<< bytes) - 1#64
  { nBytes := bytes
    addr := addrReMapping addr
    data
    mask0 := mask <<< offset
    mask1 := mask >>> (~~~offset + 1) }

/-- The command method `readReq` enqueues. -/
def readCommand (addr : BitVec 64) (bytes : BitVec 7) : DRAMRdRequest :=
  { nBytes := bytes, addr := addrReMapping addr }

/-- `mkDRAMController` after reset; `readCache` has no reset value. -/
def mkDRAMController (readCache : BitVec 512) : DRAMController where
  reqs := .empty
  respSyncQ := .empty
  resps := .empty
  dramWrCmdQ := .empty
  dramRdCmdQ := .empty
  readOffsetQ := .empty
  nextRowW := false
  nextCmdTypeQ := .empty
  nextRowR := false
  rightSft := .init
  reqCountUp := 0#7
  reqCountDown := 0#7
  readCache

namespace DRAMController

/-- Method `write`. -/
def write (s : DRAMController) (addr : BitVec 64) (data : BitVec 512) (bytes : BitVec 7)
    : Option DRAMController := do
  let dramWrCmdQ ← s.dramWrCmdQ.enq (writeCommand addr data bytes)
  let nextCmdTypeQ ← s.nextCmdTypeQ.enq false
  return { s with dramWrCmdQ, nextCmdTypeQ }

/-- Method `readReq`. -/
def readReq (s : DRAMController) (addr : BitVec 64) (bytes : BitVec 7)
    : Option DRAMController := do
  let dramRdCmdQ ← s.dramRdCmdQ.enq (readCommand addr bytes)
  let nextCmdTypeQ ← s.nextCmdTypeQ.enq true
  return { s with dramRdCmdQ, nextCmdTypeQ }

/-- `truncate(v)`, the row a value of the shifter is returned as. -/
def lowRow (v : BitVec 1024) : BitVec 512 := v.truncate 512

/-- Method `read`. -/
def read (s : DRAMController) : Option (BitVec 512 × DRAMController) := do
  let (v, rightSft) ← s.rightSft.getVal
  return (lowRow v, { s with rightSft })

def driverWrie (s : DRAMController) : Option DRAMController := do
  let (isRead, nextCmdTypeQ) ← s.nextCmdTypeQ.deq
  let (v, dramWrCmdQ) ← s.dramWrCmdQ.deq
  if isRead then none
  else if s.nextRowW = false then do
    let reqs ← s.reqs.enq v.firstRow
    if firstNbytes v.addr < v.nBytes then
      return { s with reqs, nextRowW := true }
    else
      return { s with reqs, dramWrCmdQ, nextCmdTypeQ }
  else do
    let reqs ← s.reqs.enq v.nextRow
    return { s with reqs, dramWrCmdQ, nextCmdTypeQ, nextRowW := false }

def driverReadC (s : DRAMController) : Option DRAMController := do
  let (isRead, nextCmdTypeQ) ← s.nextCmdTypeQ.deq
  let (v, dramRdCmdQ) ← s.dramRdCmdQ.deq
  let offset : BitVec 6 := v.addr.extractLsb 5 0
  if isRead = false then none
  else if s.nextRowR = false then do
    let reqs ← s.reqs.enq v.firstRow
    if v.nBytes > firstNbytes v.addr then do
      let readOffsetQ ← s.readOffsetQ.enq (true, offset)
      return { s with reqs, readOffsetQ, nextRowR := true }
    else do
      let readOffsetQ ← s.readOffsetQ.enq (false, offset)
      return { s with reqs, readOffsetQ, dramRdCmdQ, nextCmdTypeQ }
  else do
    let reqs ← s.reqs.enq v.nextRow
    let readOffsetQ ← s.readOffsetQ.enq (false, offset)
    return { s with reqs, readOffsetQ, dramRdCmdQ, nextCmdTypeQ, nextRowR := false }

/-- The value `recvRead` enters into the shifter: `extend(res)` or `{res,readCache}`. -/
def rotateInput (readCache res : BitVec 512) (offset : BitVec 6) : BitVec 1024 :=
  if offset = 0#6 then res.zeroExtend 1024 else res ++ readCache

def recvRead (s : DRAMController) : Option DRAMController := do
  let (res, respSyncQ) ← s.respSyncQ.deq
  let ((cache, offset), readOffsetQ) ← s.readOffsetQ.deq
  if cache then
    return { s with respSyncQ, readOffsetQ, readCache := res }
  else do
    let rightSft ← s.rightSft.rotateByteBy (rotateInput s.readCache res offset) offset
    return { s with respSyncQ, readOffsetQ, rightSft }

def relayResps2 (s : DRAMController) : Option DRAMController := do
  let (x, resps) ← s.resps.deq
  let respSyncQ ← s.respSyncQ.enq x
  return { s with resps, respSyncQ, reqCountDown := s.reqCountDown + 1 }

end DRAMController

namespace DramSystem

def relayReqs (s : DramSystem) : Option DramSystem :=
  if s.ctl.reqCountUp - s.ctl.reqCountDown < max_read_reqs then do
    let (req, reqs) ← s.ctl.reqs.deq
    return { s with
      ctl.reqs := reqs
      ctl.reqCountUp :=
        if req.writeen = 0#64 then s.ctl.reqCountUp + 1 else s.ctl.reqCountUp
      ddr3.pending := s.ddr3.pending ++ [req] }
  else none

def relayResps (s : DramSystem) : Option DramSystem :=
  match s.ddr3.responses with
  | [] => none
  | x :: responses => do
      let resps ← s.ctl.resps.enq x
      return { s with ctl.resps := resps, ddr3.responses := responses }

end DramSystem

/-- The events of the controller and its DDR3. -/
inductive DramEvent where
  | write (addr : BitVec 64) (data : BitVec 512) (bytes : BitVec 7)
  | readReq (addr : BitVec 64) (bytes : BitVec 7)
  | read
  | driverWrie
  | driverReadC
  | recvRead
  | relayReqs
  | relayResps
  | relayResps2
  | serve
deriving DecidableEq

/-- One event; `none` when its guard is false. -/
def DramSystem.step (s : DramSystem) : DramEvent → Option DramSystem
  | .write addr data bytes => (s.ctl.write addr data bytes).map ({ s with ctl := · })
  | .readReq addr bytes => (s.ctl.readReq addr bytes).map ({ s with ctl := · })
  | .read => s.ctl.read.map (fun taken => { s with ctl := taken.2 })
  | .driverWrie => s.ctl.driverWrie.map ({ s with ctl := · })
  | .driverReadC => s.ctl.driverReadC.map ({ s with ctl := · })
  | .recvRead => s.ctl.recvRead.map ({ s with ctl := · })
  | .relayReqs => s.relayReqs
  | .relayResps => s.relayResps
  | .relayResps2 => s.ctl.relayResps2.map ({ s with ctl := · })
  | .serve => s.ddr3.serve.map ({ s with ddr3 := · })

/-- What reset does not determine: the cache register and the contents of the DDR3. -/
structure DramPowerUp where
  readCache : BitVec 512
  rows : Rows
deriving Inhabited

/-- The controller after reset over an idle DDR3. -/
def DramSystem.reset (p : DramPowerUp) : DramSystem :=
  { ctl := mkDRAMController p.readCache, ddr3 := ⟨p.rows, [], []⟩ }

end BluespecPcie

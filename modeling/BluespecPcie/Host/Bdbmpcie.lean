import BluespecPcie.PcieCtrl.Requests

/-! The write side of bdbmpcie.cpp, composed with the device over the PCIe link.

A register access of the host is a TLP on the link: a store is a posted write, and a load
waits for its completion. The link keeps the order of the host's TLPs.
-/

namespace BluespecPcie

open Bluespec

/-- `BAR0_SIZE`. -/
def bar0_size : Nat := 1024 * 1024

/-- `CONFIG_BUFFER_SIZE`, where the user region starts. -/
def config_buffer_size : Nat := 1024 * 16

/-- `IO_QUEUE_SIZE`. -/
def io_queue_size : BitVec 32 := 512#32

/-- `ruser` of a beat that is a whole TLP from byte 0. -/
def singleBeat : BitVec 22 := 0x204000#22

/-- The store `ummd[(addr>>2)] = data` on the link. -/
def hostWrite (addr data : BitVec 32) : RxBeat where
  tlp := packDWs (reverseEndian data) (addr >>> 2 <<< 2) 0x0000000f#32 0x40000001#32
  keep := 0xffff#16
  ruser := singleBeat

/-- The load `ummd[CONFIG_BUFFER_ISIZE-1]` of the emit counter on the link. -/
def emitRead : RxBeat where
  tlp := packDWs 0#32 16380#32 0x0000000f#32 0x00000001#32
  keep := 0x0fff#16
  ruser := singleBeat

/-- Where the host's writing thread is: not initialized, between calls, or inside `writeWord`
waiting for the emit counter.
-/
inductive WriteCall where
  | closed
  | idle
  | waiting (addr data : BitVec 32)
deriving DecidableEq

/-- The write credits of the host. -/
structure BdbmPcie where
  io_wreq : BitVec 32
  io_wbudget : BitVec 32
  call : WriteCall

namespace BdbmPcie

/-- `Init_Pcie`: reset the device's counters and the host's, with the TLPs it sends. -/
def init_pcie (_ : BdbmPcie) : BdbmPcie × List RxBeat :=
  ({ io_wreq := 0#32, io_wbudget := 0#32, call := .idle }, [hostWrite 0#32 0#32])

/-- `writeWord` up to its first load: use the budget, or ask for the emit counter. -/
def writeWord (h : BdbmPcie) (addr data : BitVec 32) : BdbmPcie × List RxBeat :=
  if h.io_wbudget > 0#32 then
    ({ h with io_wbudget := h.io_wbudget - 1#32 }, [hostWrite addr data])
  else
    ({ h with call := .waiting addr data }, [emitRead])

/-- `writeWord` with the emit counter it loaded: ask again, or refill the budget and write. -/
def loaded (h : BdbmPcie) (addr data io_wemit : BitVec 32) : BdbmPcie × List RxBeat :=
  if h.io_wreq - io_wemit ≥ io_queue_size / 2#32 then (h, [emitRead])
  else
    ({ io_wbudget := io_queue_size - (h.io_wreq - io_wemit)
       io_wreq := h.io_wreq + (io_queue_size - (h.io_wreq - io_wemit) + 1#32)
       call := .idle }, [hostWrite addr data])

/-- A beat from the device: the completion of the load under way, or nothing to this thread. -/
def taken (h : BdbmPcie) (beat : SendTLP) : BdbmPcie × List RxBeat :=
  match h.call with
  | .waiting addr data =>
      if isCompletion (tlpType beat.tlp) && completionTag beat.tlp == requestTag emitRead.tlp
      then h.loaded addr data (reverseEndian (dword beat.tlp 3))
      else (h, [])
  | _ => (h, [])

end BdbmPcie

/-- Host, link and device. -/
structure HostSystem where
  host : BdbmPcie
  wire : List RxBeat
  device : PcieCtrl

/-- What may happen: a host call, the arrival of a beat at the device, or an event of it. -/
inductive HostEvent where
  | initPcie
  | writeWord (addr data : BitVec 32)
  | receive
  | device (e : Event)
deriving DecidableEq

namespace HostSystem

/-- The host after a call or load, with its TLPs on the link. -/
def sends (s : HostSystem) (next : BdbmPcie × List RxBeat) : HostSystem :=
  { s with host := next.1, wire := s.wire ++ next.2 }

/-- One event; `none` when it cannot happen. Calls start between calls, and beats reach the
device from the link only.
-/
def step (s : HostSystem) : HostEvent → Option HostSystem
  | .initPcie =>
      match s.host.call with
      | .waiting _ _ => none
      | _ => some (s.sends s.host.init_pcie)
  | .writeWord addr data =>
      match s.host.call with
      | .idle => some (s.sends (s.host.writeWord addr data))
      | _ => none
  | .receive =>
      match s.wire with
      | [] => none
      | b :: wire => (s.device.recvTLP b).map ({ s with wire, device := · })
  | .device (.recvTLP _) => none
  | .device .relayTLP =>
      s.device.relayTLP.map (fun sent =>
        { s with device := sent.2 }.sends (s.host.taken sent.1))
  | .device e => (s.device.step e).map ({ s with device := · })

/-- Before `Init_Pcie`: the device after reset, and a host with arbitrary counters. -/
def reset (p : PowerUp) (io_wreq io_wbudget : BitVec 32) : HostSystem :=
  { host := { io_wreq, io_wbudget, call := .closed }, wire := [], device := mkPcieCtrl p }

end HostSystem

-----------------------------------------------------------------------------------------
-- History
-----------------------------------------------------------------------------------------

/-- The beat is a write of the user region. -/
def isUserWrite (tlp : BitVec 128) : Bool :=
  isWrite (tlpType tlp) && !decide (internalAddr tlp < io_userspace_offset)

/-- The beat is the write to address 0 that resets the emit counters. -/
def isReset (tlp : BitVec 128) : Bool :=
  isWrite (tlpType tlp) && internalAddr tlp == 0#20

/-- User-region writes issued, and user-region writes delivered by `dataReceive`. -/
structure CreditLog where
  issued : Nat
  delivered : Nat

/-- User-region writes among the TLPs a host sends. -/
def userWrites (beats : List RxBeat) : Nat := beats.countP (fun b => isUserWrite b.tlp)

/-- How an event extends the history; `s` is the state before it. -/
def CreditLog.record (s : HostSystem) (e : HostEvent) (log : CreditLog) : CreditLog :=
  match e with
  | .initPcie => { log with issued := log.issued + userWrites s.host.init_pcie.2 }
  | .writeWord addr data =>
      { log with issued := log.issued + userWrites (s.host.writeWord addr data).2 }
  | .device .relayTLP =>
      match s.device.relayTLP with
      | some (beat, _) => { log with issued := log.issued + userWrites (s.host.taken beat).2 }
      | none => log
  | .device .dataReceive => { log with delivered := log.delivered + 1 }
  | _ => log

/-- The system with the history of its user-region writes. -/
def creditStep : HostSystem × CreditLog → HostEvent → Option (HostSystem × CreditLog) :=
  traced HostSystem.step CreditLog.record

/-- The TLPs of the host that the device has not acted on, oldest first. -/
def HostSystem.inFlight (s : HostSystem) : List (BitVec 128) :=
  s.device.rx.tlp3Q.items ++ s.device.rx.tlp2Q.items ++ s.device.rx.tlpQ.items
    ++ s.wire.map RxBeat.tlp

/-- The user-region writes in the device's user queues. -/
def PcieCtrl.queuedWrites (s : PcieCtrl) : Nat :=
  s.io.userWrite1Q.items.length + s.io.userWriteQ.items.length
    + s.io.userWrite2Q.items.length

/-- A reset write is under way. -/
def HostSystem.resetPending (s : HostSystem) : Bool := s.inFlight.any isReset

end BluespecPcie

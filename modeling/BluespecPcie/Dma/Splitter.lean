import BluespecPcie.Dma.WideCtrl
import BluespecPcie.Host.ByteStores

/-! `DMASplitter` of dmasplitter.cpp, and the packet ring between it and `mkDMAWideCtrl`. -/

namespace BluespecPcie

open Bluespec

-----------------------------------------------------------------------------------------
-- The host
-----------------------------------------------------------------------------------------

structure PCIeWord where
  d : List (BitVec 32)
  header : BitVec 32

/-- Header and word, as the device enqueued them. -/
def PCIeWord.packet (w : PCIeWord) : BitVec 32 × BitVec 128 :=
  (w.header, w.d.getD 3 0 ++ w.d.getD 2 0 ++ w.d.getD 1 0 ++ w.d.getD 0 0)

/-- The locals of `scanReceive`; `taken` are the fields read so far of a slot that matched. -/
structure ScanLocals where
  i : Nat
  recvd : Nat
  found : Bool
  taken : Option (List (BitVec 32))

/-- The members that receiving uses, and the locals while `scanReceive` runs. The index is an
`int` that wraps.
-/
structure DMASplitter where
  nextrecvidx : BitVec 32
  nextrecvoff : BitVec 32
  recvList : List PCIeWord
  scan : Option ScanLocals

/-- `ubuf[k]` of the DMA buffer. -/
def ubuf (mem : HostMemory) (k : Nat) : BitVec 32 :=
  let a := BitVec.ofNat 32 (4 * k)
  mem (a + 3) ++ mem (a + 2) ++ mem (a + 1) ++ mem a

/-- The first 4 KB as the constructor leaves them. -/
def constructed (mem : HostMemory) : HostMemory :=
  fun a => if a.toNat < 1024 * 4 then 0xff else mem a

namespace DMASplitter

/-- `u32off` of iteration `i`. -/
def u32off (h : DMASplitter) (i : Nat) : Nat :=
  (BitVec.ofNat 32 i + h.nextrecvoff).toNat % (1024 * 4 / 32) * 4 * 2

/-- A call of `scanReceive`. -/
def scanReceive (h : DMASplitter) : Option DMASplitter :=
  match h.scan with
  | none => some { h with scan := some ⟨0, 0, false, none⟩ }
  | some _ => none

/-- Behind the loop: the index goes to the device if a word was received. -/
def scanEnd (h : DMASplitter) (l : ScanLocals) : DMASplitter × List IOWrite :=
  ({ h with nextrecvoff := h.nextrecvoff + BitVec.ofNat 32 l.recvd, scan := none },
    if 0 < l.recvd then [⟨16 * 4, h.nextrecvidx⟩] else [])

/-- The next load of `scanReceive`, with what it writes to the device. -/
def scanStep (mem : HostMemory) (h : DMASplitter) : Option (DMASplitter × List IOWrite) :=
  match h.scan with
  | none => none
  | some l =>
      match l.taken with
      | some fields =>
          if fields.length < 5 then
            let field := ubuf mem (h.u32off l.i + fields.length)
            some ({ h with scan := some { l with taken := some (fields ++ [field]) } }, [])
          else
            some ({ h with
              recvList := ⟨fields.take 4, fields.getD 4 0⟩ :: h.recvList
              nextrecvidx := h.nextrecvidx + 1
              scan := some ⟨l.i + 1, l.recvd + 1, true, none⟩ }, [])
      | none =>
          if l.i < 1024 * 4 / 32 then
            if ubuf mem (h.u32off l.i + 5) = h.nextrecvidx then
              some ({ h with scan := some { l with taken := some [] } }, [])
            else if l.found = true then some (h.scanEnd l)
            else some ({ h with scan := some { l with i := l.i + 1 } }, [])
          else some (h.scanEnd l)

/-- `recvWord` once `recvList` has a word. -/
def recvWord (h : DMASplitter) : Option (PCIeWord × DMASplitter) :=
  match h.scan with
  | some _ => none
  | none => h.recvList.getLast?.map (fun w => (w, { h with recvList := h.recvList.dropLast }))

end DMASplitter

-----------------------------------------------------------------------------------------
-- Device and host
-----------------------------------------------------------------------------------------

/-- The module over an interface, the host, the writes of the host that the device has not
received, and how many packets have landed in the ring.
-/
structure PacketSystem (P : TaggedDma) where
  ctrl : DMAWideCtrl
  pcie : P.State
  splitter : DMASplitter
  io : List IOWrite
  landed : Nat

/-- What can happen: the rules of the module, steps of the interface, a packet lands, and calls
of the user and of the host.
-/
inductive PacketEvent where
  | getWriteReq
  | rule (rule : DMAWideCtrlRule)
  | pcie
  | land
  | enq (head : BitVec 32) (word : BitVec 128)
  | deq
  | dmaWriteReq (addr words : BitVec 32) (tag : BitVec 8)
  | dmaWriteData (data : BitVec 256) (tag : BitVec 8)
  | writeWord (addr : BitVec 20) (data : BitVec 32)
  | scanReceive
  | scanStep
  | recvWord

/-- A store to the first 4 KB of the DMA buffer. -/
def inRing (store : BitVec 32 × DMAWord) : Bool := store.1.toNat < 1024 * 4

namespace PacketSystem

variable {P : TaggedDma}

/-- After reset, with a constructed `DMASplitter` whose writes of words 16 and 17 are done. -/
def init (P : TaggedDma) : PacketSystem P where
  ctrl := mkDMAWideCtrl
  pcie := P.init
  splitter := ⟨0, 0, [], none⟩
  io := []
  landed := 0

/-- The words stored in the ring so far, two for each packet. -/
def ringStores (s : PacketSystem P) : List (BitVec 32 × DMAWord) :=
  (P.stores s.pcie).filter inRing

/-- The ring as the host sees it: the packets that have landed, each as a whole. -/
def memory (s : PacketSystem P) (mem : HostMemory) : HostMemory :=
  storeWords (constructed mem) (s.ringStores.take (2 * s.landed))

/-- The next write of the host is received. -/
def getWriteReq (s : PacketSystem P) : Option (PacketSystem P) :=
  match s.io with
  | [] => none
  | d :: io => (s.ctrl.getWriteReq d).map (fun ctrl => { s with ctrl, io })

/-- One event; `mem` is what the DMA buffer held at first. -/
def step (mem : HostMemory) (s : PacketSystem P) : PacketEvent → Option (PacketSystem P)
  | .getWriteReq => s.getWriteReq
  | .rule rule => do
      let (ctrl, call) ← s.ctrl.fire rule
      let pcie ← P.accept s.pcie call
      return { s with ctrl, pcie }
  | .pcie => (P.internal s.pcie).map (fun pcie => { s with pcie })
  | .land =>
      if 2 * (s.landed + 1) ≤ s.ringStores.length then some { s with landed := s.landed + 1 }
      else none
  | .enq head word => (s.ctrl.enq head word).map (fun ctrl => { s with ctrl })
  | .deq => s.ctrl.deq.map (fun taken => { s with ctrl := taken.2 })
  | .dmaWriteReq addr words tag =>
      (s.ctrl.dmaWriteReq addr words tag).map (fun ctrl => { s with ctrl })
  | .dmaWriteData data tag => (s.ctrl.dmaWriteData data tag).map (fun ctrl => { s with ctrl })
  | .writeWord addr data => some { s with io := s.io ++ [⟨addr, data⟩] }
  | .scanReceive => s.splitter.scanReceive.map (fun splitter => { s with splitter })
  | .scanStep =>
      (s.splitter.scanStep (s.memory mem)).map
        (fun next => { s with splitter := next.1, io := s.io ++ next.2 })
  | .recvWord => s.splitter.recvWord.map (fun taken => { s with splitter := taken.2 })

end PacketSystem

/-- The packets enqueued and those `recvWord` returned; and for each word that the user's DMA
writes asked for, and for each one that was supplied, its tag.
-/
structure PacketLog where
  enqueued : List (BitVec 32 × BitVec 128) := []
  returned : List (BitVec 32 × BitVec 128) := []
  requested : List (BitVec 8) := []
  supplied : List (BitVec 8) := []

namespace PacketLog

/-- How an event extends the history; a wide word is two words. -/
def record {P : TaggedDma} (s : PacketSystem P) (e : PacketEvent) (log : PacketLog)
    : PacketLog :=
  match e with
  | .enq head word => { log with enqueued := log.enqueued ++ [(head, word)] }
  | .recvWord =>
      { log with
        returned := log.returned
          ++ (s.splitter.recvWord.map (fun taken => taken.1.packet)).toList }
  | .dmaWriteReq _ words tag =>
      { log with requested := log.requested ++ List.replicate (2 * words.toNat) tag }
  | .dmaWriteData _ tag => { log with supplied := log.supplied ++ [tag, tag] }
  | _ => log

/-- The words supplied carry the tags of the requests, in their order. -/
def Matched (requested supplied : List (BitVec 8)) : Prop :=
  requested <+: supplied ∨ supplied <+: requested

/-- User DMA writes stay inside the DMA addresses above the first 4 KB and their words carry
their tags, and words 16 and 17 are written by the `DMASplitter` only.
-/
def Proper {P : TaggedDma} (s : PacketSystem P × PacketLog) : PacketEvent → Prop
  | .dmaWriteReq addr words tag =>
      addr.toNat + 1024 * 4 + 32 * words.toNat ≤ 2 ^ 32
        ∧ Matched (s.2.requested ++ List.replicate (2 * words.toNat) tag) s.2.supplied
  | .dmaWriteData _ tag => Matched s.2.requested (s.2.supplied ++ [tag, tag])
  | .writeWord addr data =>
      (IOWrite.mk addr data).toffset ≠ 16 ∧ (IOWrite.mk addr data).toffset ≠ 17
  | _ => True

end PacketLog

end BluespecPcie

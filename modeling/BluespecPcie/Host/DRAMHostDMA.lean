import BluespecPcie.Bluespec.Machine

/-! `CopyToFPGA` and `CopyFromFPGA` of DRAMHostDMA.cpp over a device that executes page
commands.
-/

namespace BluespecPcie

open Bluespec

-----------------------------------------------------------------------------------------
-- Bytes and words of the host
-----------------------------------------------------------------------------------------

/-- A value as a `size_t`. -/
def size_t (n : Nat) : Nat := n % 2 ^ 64

/-- A value as a `uint32_t`. -/
def uint32_t (n : Nat) : Nat := n % 2 ^ 32

/-- Bytes by address, or by the distance from a pointer. -/
abbrev ByteMap := Nat → BitVec 8

/-- `memcpy(dst + pos, src + start, n)`. -/
def memcpy (dst : ByteMap) (pos : Nat) (src : ByteMap) (start n : Nat) : ByteMap :=
  fun x => if pos ≤ x ∧ x < pos + n then src (start + (x - pos)) else dst x

/-- `memset(dst + pos, value, n)`. -/
def memset (dst : ByteMap) (pos : Nat) (value : BitVec 8) (n : Nat) : ByteMap :=
  fun x => if pos ≤ x ∧ x < pos + n then value else dst x

def m_fpga_alignment : Nat := 4 * 1024
def m_max_dma_bytes : Nat := 1024 * 1024

def m_host_mem_arg : Nat := 256 * 4
def m_fpga_mem_arg : Nat := 257 * 4
def m_fpga_write_stat_off : Nat := 256 * 4
def m_fpga_read_stat_off : Nat := 257 * 4
def m_to_fpga_cmd : Nat := 258 * 4
def m_to_host_cmd : Nat := 259 * 4

-----------------------------------------------------------------------------------------
-- The device
-----------------------------------------------------------------------------------------

/-- A page command that is not counted done, and the bytes of it that are moved. -/
structure PageCommand where
  toHost : Bool
  hostPage : Nat
  fpgaPage : Nat
  pages : Nat
  moved : Nat → Bool

namespace PageCommand

/-- Where the command begins in the DMA buffer. -/
def hostAddr (cmd : PageCommand) : Nat := cmd.hostPage * 4096

/-- Where the command begins in the FPGA memory. -/
def fpgaAddr (cmd : PageCommand) : Nat := cmd.fpgaPage * 4096

/-- The bytes the command moves. -/
def bytes (cmd : PageCommand) : Nat := cmd.pages * 4096

/-- The half of the DMA buffer that the command uses. -/
def half (cmd : PageCommand) : Nat := cmd.hostAddr / (m_max_dma_bytes / 2)

/-- Bytes `k` to `k + n` are moved. -/
def mark (cmd : PageCommand) (k n : Nat) : PageCommand :=
  { cmd with moved := fun x => cmd.moved x || (decide (k ≤ x) && decide (x < k + n)) }

/-- All bytes are moved. -/
def finished (cmd : PageCommand) : Bool := (List.range cmd.bytes).all cmd.moved

end PageCommand

/-- The device: the argument registers, the commands in order, the FPGA memory and the done
counters.
-/
structure CopyDevice where
  hostMemTemp : Nat
  fpgaMemTemp : Nat
  cmds : List PageCommand
  fpga : ByteMap
  dramWriteBurstDoneCount : Nat
  dramReadBurstDoneCount : Nat

namespace CopyDevice

/-- The command that a write of `pages` to a command register enqueues. -/
def command (d : CopyDevice) (toHost : Bool) (pages : Nat) : PageCommand where
  toHost
  hostPage := d.hostMemTemp
  fpgaPage := d.fpgaMemTemp
  pages
  moved := fun _ => false

/-- What `getCmd` does with a word written to `addr`. -/
def getCmd (d : CopyDevice) (addr data : Nat) : CopyDevice :=
  let off := addr / 4
  if off = 256 then { d with hostMemTemp := data }
  else if off = 257 then { d with fpgaMemTemp := data }
  else if off = 258 then { d with cmds := d.cmds ++ [d.command false data] }
  else if off = 259 then { d with cmds := d.cmds ++ [d.command true data] }
  else d

/-- What `readStat` answers to a read of `addr`; other words are the user's. -/
def readStat (d : CopyDevice) (addr : Nat) : Nat :=
  let off := addr / 4
  if off = 256 then d.dramWriteBurstDoneCount
  else if off = 257 then d.dramReadBurstDoneCount
  else 0

/-- The oldest command is counted done; all its bytes are moved. -/
def done (d : CopyDevice) : Option CopyDevice :=
  match d.cmds with
  | [] => none
  | cmd :: cmds =>
      if cmd.finished then
        if cmd.toHost then
          some { d with cmds, dramReadBurstDoneCount := uint32_t (d.dramReadBurstDoneCount + 1) }
        else
          some { d with cmds, dramWriteBurstDoneCount := uint32_t (d.dramWriteBurstDoneCount + 1) }
      else none

end CopyDevice

-----------------------------------------------------------------------------------------
-- The host
-----------------------------------------------------------------------------------------

/-- The local variables of a copy. `cnt` is `writes_cnt` or `reads_cnt`, `user_bytes` is
`src_bytes` or `dst_bytes`, and `bufoff` the offset of the chunk in the DMA buffer.
-/
structure CopyLocals where
  offset : Nat
  bytes : Nat
  user_bytes : Nat
  cnt : Nat
  host_offset : Nat
  i : Nat
  curbyte : Nat
  lastbyte : Nat
  bufoff : Nat

/-- Where a copy is: before the test of its loop, before each of its register writes, in the
wait of the loop, or in the wait behind the loop.
-/
inductive CopyPoint where
  | loop
  | hostArg
  | fpgaArg
  | command
  | poll
  | last
deriving DecidableEq

/-- The thread that holds `m_mutex`, if there is one. -/
inductive CopyThread where
  | idle
  | CopyToFPGA (point : CopyPoint) (l : CopyLocals)
  | CopyFromFPGA (point : CopyPoint) (l : CopyLocals)

/-- The host object with its caller's buffer and the DMA buffer, and the device. -/
structure CopySystem where
  m_write_done_total : Nat
  m_read_done_total : Nat
  thread : CopyThread
  buffer : ByteMap
  dmaBuffer : ByteMap
  device : CopyDevice

namespace CopyLocals

/-- The locals before the first iteration. -/
def enter (offset bytes : Nat) : CopyLocals :=
  let aligned :=
    if offset % m_fpga_alignment ≠ 0
      then size_t (offset / m_fpga_alignment * m_fpga_alignment) else offset
  let whole :=
    if bytes % m_fpga_alignment ≠ 0
      then size_t ((bytes / m_fpga_alignment + 1) * m_fpga_alignment) else bytes
  { offset := aligned
    bytes := whole
    user_bytes := bytes
    cnt := whole / (m_max_dma_bytes / 2)
      + (if whole % (m_max_dma_bytes / 2) ≠ 0 then 1 else 0)
    host_offset := 0
    i := 0
    curbyte := 0
    lastbyte := 0
    bufoff := 0 }

/-- The bytes of the next chunk. -/
def nextBytes (l : CopyLocals) : Nat :=
  if m_max_dma_bytes / 2 > l.bytes then l.bytes else m_max_dma_bytes / 2

/-- The half of the DMA buffer for iteration `i`, as an offset. -/
def halfOff (i : Nat) : Nat := if i % 2 ≠ 0 then m_max_dma_bytes / 2 else 0

/-- The locals once the chunk of the iteration is chosen. -/
def chunk (l : CopyLocals) : CopyLocals :=
  { l with curbyte := l.nextBytes, bufoff := halfOff l.i }

/-- The locals of `CopyToFPGA` behind an iteration; `src_bytes` may wrap in the last one. -/
def nextWrite (l : CopyLocals) : CopyLocals :=
  { l with
    host_offset := size_t (l.host_offset + l.curbyte)
    offset := size_t (l.offset + l.curbyte)
    bytes := size_t (l.bytes + 2 ^ 64 - l.curbyte)
    user_bytes := size_t (l.user_bytes + 2 ^ 64 - l.curbyte)
    i := l.i + 1 }

/-- The locals of `CopyFromFPGA` behind an iteration. -/
def nextRead (l : CopyLocals) : CopyLocals :=
  { l with
    host_offset := if l.i > 0 then size_t (l.host_offset + l.lastbyte) else l.host_offset
    user_bytes := if l.i > 0 then size_t (l.user_bytes + 2 ^ 64 - l.lastbyte) else l.user_bytes
    lastbyte := l.curbyte
    offset := size_t (l.offset + l.curbyte)
    bytes := size_t (l.bytes + 2 ^ 64 - l.curbyte)
    i := l.i + 1 }

end CopyLocals

namespace CopySystem

/-- A register write of the host. -/
def userWriteWord (s : CopySystem) (addr data : Nat) : CopySystem :=
  { s with device := s.device.getCmd addr (uint32_t data) }

/-- A status read of the host. -/
def userReadWord (s : CopySystem) (addr : Nat) : Nat := s.device.readStat addr

/-- The part of a chunk that `CopyToFPGA` copies into the DMA buffer, padded with 0xFF. -/
def fill (s : CopySystem) (l : CopyLocals) : ByteMap :=
  if l.user_bytes < l.curbyte then
    memset (memcpy s.dmaBuffer l.bufoff s.buffer l.host_offset l.user_bytes)
      (l.bufoff + l.user_bytes) 0xff (l.curbyte - l.user_bytes)
  else memcpy s.dmaBuffer l.bufoff s.buffer l.host_offset l.curbyte

/-- One step of `CopyToFPGA`. -/
def CopyToFPGA (s : CopySystem) (point : CopyPoint) (l : CopyLocals) : CopySystem :=
  match point with
  | .loop =>
      if l.i < l.cnt then
        { s with dmaBuffer := s.fill l.chunk, thread := .CopyToFPGA .hostArg l.chunk }
      else { s with thread := .CopyToFPGA .last l }
  | .hostArg =>
      { s.userWriteWord m_host_mem_arg (l.bufoff / m_fpga_alignment) with
        thread := .CopyToFPGA .fpgaArg l }
  | .fpgaArg =>
      { s.userWriteWord m_fpga_mem_arg (l.offset / m_fpga_alignment) with
        thread := .CopyToFPGA .command l }
  | .command =>
      { s.userWriteWord m_to_fpga_cmd (l.curbyte / m_fpga_alignment) with
        thread := .CopyToFPGA .poll l }
  | .poll =>
      let writecnt := s.userReadWord m_fpga_write_stat_off
      if writecnt < size_t (s.m_write_done_total + l.i) then s
      else { s with thread := .CopyToFPGA .loop l.nextWrite }
  | .last =>
      let writecnt := s.userReadWord m_fpga_write_stat_off
      if writecnt < size_t (s.m_write_done_total + l.cnt) then s
      else { s with m_write_done_total := writecnt, thread := .idle }

/-- The copy of the last chunk out of the DMA buffer; the rest of the half is set to 0xff. -/
def drainLast (s : CopySystem) (l : CopyLocals) : ByteMap :=
  let bufoff := if l.cnt % 2 = 0 then m_max_dma_bytes / 2 else 0
  if l.user_bytes ≥ m_max_dma_bytes / 2 then
    memcpy s.buffer l.host_offset s.dmaBuffer bufoff (m_max_dma_bytes / 2)
  else
    memset (memcpy s.buffer l.host_offset s.dmaBuffer bufoff l.user_bytes)
      (l.host_offset + l.user_bytes) 0xff (m_max_dma_bytes / 2 - l.user_bytes)

/-- One step of `CopyFromFPGA`. -/
def CopyFromFPGA (s : CopySystem) (point : CopyPoint) (l : CopyLocals) : CopySystem :=
  match point with
  | .loop =>
      if l.i < l.cnt then { s with thread := .CopyFromFPGA .hostArg l.chunk }
      else { s with thread := .CopyFromFPGA .last l }
  | .hostArg =>
      { s.userWriteWord m_host_mem_arg (l.bufoff / m_fpga_alignment) with
        thread := .CopyFromFPGA .fpgaArg l }
  | .fpgaArg =>
      { s.userWriteWord m_fpga_mem_arg (l.offset / m_fpga_alignment) with
        thread := .CopyFromFPGA .command l }
  | .command =>
      { s.userWriteWord m_to_host_cmd (l.curbyte / m_fpga_alignment) with
        thread := .CopyFromFPGA .poll l }
  | .poll =>
      let readcnt := s.userReadWord m_fpga_read_stat_off
      if readcnt < size_t (s.m_read_done_total + l.i) then s
      else
        { s with
          buffer :=
            if l.i > 0 then
              memcpy s.buffer l.host_offset s.dmaBuffer
                (if l.i % 2 = 0 then m_max_dma_bytes / 2 else 0) l.lastbyte
            else s.buffer
          thread := .CopyFromFPGA .loop l.nextRead }
  | .last =>
      let readcnt := s.userReadWord m_fpga_read_stat_off
      if readcnt < size_t (s.m_read_done_total + l.cnt) then s
      else
        { s with
          m_read_done_total := readcnt
          buffer := s.drainLast l
          thread := .idle }

/-- The thread waits for a done counter. -/
def waiting (s : CopySystem) : Bool :=
  match s.thread with
  | .CopyToFPGA .poll l =>
      s.userReadWord m_fpga_write_stat_off < size_t (s.m_write_done_total + l.i)
  | .CopyToFPGA .last l =>
      s.userReadWord m_fpga_write_stat_off < size_t (s.m_write_done_total + l.cnt)
  | .CopyFromFPGA .poll l =>
      s.userReadWord m_fpga_read_stat_off < size_t (s.m_read_done_total + l.i)
  | .CopyFromFPGA .last l =>
      s.userReadWord m_fpga_read_stat_off < size_t (s.m_read_done_total + l.cnt)
  | _ => false

/-- The next step of the thread. -/
def host (s : CopySystem) : Option CopySystem :=
  match s.thread with
  | .idle => none
  | .CopyToFPGA point l => some (s.CopyToFPGA point l)
  | .CopyFromFPGA point l => some (s.CopyFromFPGA point l)

/-- The device moves bytes `k` to `k + n` of its command `j`: out of the FPGA memory into the
DMA buffer, or out of the DMA buffer into the FPGA memory.
-/
def move (s : CopySystem) (j k n : Nat) : Option CopySystem := do
  let cmd ← s.device.cmds[j]?
  if k + n ≤ cmd.bytes then
    let cmds := s.device.cmds.set j (cmd.mark k n)
    if cmd.toHost then
      return { s with
        device.cmds := cmds
        dmaBuffer :=
          memcpy s.dmaBuffer (cmd.hostAddr + k) s.device.fpga (cmd.fpgaAddr + k) n }
    else
      return { s with
        device.cmds := cmds
        device.fpga :=
          memcpy s.device.fpga (cmd.fpgaAddr + k) s.dmaBuffer (cmd.hostAddr + k) n }
  else none

end CopySystem

/-- The events of the host and the device. -/
inductive CopyEvent where
  | CopyToFPGA (offset : Nat) (buffer : ByteMap) (bytes : Nat)
  | CopyFromFPGA (offset : Nat) (buffer : ByteMap) (bytes : Nat)
  | host
  | move (j k n : Nat)
  | done

/-- One event; `none` when it cannot take place. A copy starts when no other holds the mutex. -/
def CopySystem.step (s : CopySystem) : CopyEvent → Option CopySystem
  | .CopyToFPGA offset buffer bytes =>
      match s.thread with
      | .idle => some { s with buffer, thread := .CopyToFPGA .loop (.enter offset bytes) }
      | _ => none
  | .CopyFromFPGA offset buffer bytes =>
      match s.thread with
      | .idle => some { s with buffer, thread := .CopyFromFPGA .loop (.enter offset bytes) }
      | _ => none
  | .host => s.host
  | .move j k n => s.move j k n
  | .done => s.device.done.map ({ s with device := · })

/-- What is there before the object is constructed: the counters of an idle device, and the
contents of the buffers and the FPGA memory.
-/
structure CopyStart where
  written : Nat
  read : Nat
  buffer : ByteMap
  dmaBuffer : ByteMap
  fpga : ByteMap
deriving Inhabited

/-- The constructed `DRAMHostDMA`: its totals are the counters it read. -/
def CopySystem.construct (p : CopyStart) : CopySystem where
  m_write_done_total := uint32_t p.written
  m_read_done_total := uint32_t p.read
  thread := .idle
  buffer := p.buffer
  dmaBuffer := p.dmaBuffer
  device :=
    { hostMemTemp := 0
      fpgaMemTemp := 0
      cmds := []
      fpga := p.fpga
      dramWriteBurstDoneCount := uint32_t p.written
      dramReadBurstDoneCount := uint32_t p.read }

end BluespecPcie

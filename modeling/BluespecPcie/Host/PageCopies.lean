import BluespecPcie.Host.DRAMHostDMA

/-! Double-buffered copies: what each call leaves in the FPGA memory and in the caller's buffer. -/

namespace BluespecPcie

open Bluespec

-----------------------------------------------------------------------------------------
-- What a call has to do
-----------------------------------------------------------------------------------------

/-- A call with the caller's buffer and the FPGA memory as they were when it was made. -/
structure CopyCall where
  toHost : Bool
  offset : Nat
  bytes : Nat
  buffer : ByteMap
  fpga : ByteMap

namespace CopyCall

/-- The first byte of the page of `offset`. -/
def base (call : CopyCall) : Nat := call.offset / 4096 * 4096

/-- The bytes of the pages that the call moves. -/
def total (call : CopyCall) : Nat := (call.bytes + 4095) / 4096 * 4096

/-- The buffer padded with 0xFF. -/
def padded (call : CopyCall) (j : Nat) : BitVec 8 :=
  if j < call.bytes then call.buffer j else 0xff

/-- What `CopyToFPGA` leaves: the padded buffer in the pages, and the other pages as they were.
-/
def WritesPages (call : CopyCall) (s : CopySystem) : Prop :=
  ∀ a, s.device.fpga a
    = if call.base ≤ a ∧ a < call.base + call.total then call.padded (a - call.base)
      else call.fpga a

/-- What `CopyFromFPGA` leaves: the bytes of the FPGA memory in the buffer, and that memory as
it was.
-/
def ReadsPages (call : CopyCall) (s : CopySystem) : Prop :=
  (∀ j < call.bytes, s.buffer j = call.fpga (call.base + j)) ∧ s.device.fpga = call.fpga

/-- What a call leaves when it returns. -/
def Leaves (call : CopyCall) (s : CopySystem) : Prop :=
  if call.toHost then call.ReadsPages s else call.WritesPages s

end CopyCall

/-- The last call, and the halves of the DMA buffer whose data is not copied out. -/
structure CopyLog where
  call : Option CopyCall
  uncopied : List Nat

/-- The number of the half at an offset of the DMA buffer. -/
def halfAt (bufoff : Nat) : Nat := bufoff / (m_max_dma_bytes / 2)

/-- The half that the next step of the thread copies out. -/
def CopySystem.copiesOut (s : CopySystem) : Option Nat :=
  if s.waiting then none
  else
    match s.thread with
    | .CopyFromFPGA .poll l =>
        if l.i > 0 then some (halfAt (if l.i % 2 = 0 then m_max_dma_bytes / 2 else 0)) else none
    | .CopyFromFPGA .last l =>
        some (halfAt (if l.cnt % 2 = 0 then m_max_dma_bytes / 2 else 0))
    | _ => none

/-- The half that the next step of the thread fills, or hands to the device. -/
def CopySystem.touches (s : CopySystem) : Option Nat :=
  match s.thread with
  | .CopyToFPGA .loop l => if l.i < l.cnt then some (halfAt l.chunk.bufoff) else none
  | .CopyToFPGA .command l | .CopyFromFPGA .command l => some (halfAt l.bufoff)
  | _ => none

/-- How an event extends the history; `s` is the state before it. -/
def CopyLog.record (s : CopySystem) (e : CopyEvent) (log : CopyLog) : CopyLog :=
  match e with
  | .CopyToFPGA offset buffer bytes =>
      { log with call := some { toHost := false, offset, bytes, buffer, fpga := s.device.fpga } }
  | .CopyFromFPGA offset buffer bytes =>
      { log with call := some { toHost := true, offset, bytes, buffer, fpga := s.device.fpga } }
  | .host =>
      match s.thread, s.copiesOut with
      | .CopyFromFPGA .command l, _ =>
          { log with uncopied := log.uncopied ++ [halfAt l.bufoff] }
      | _, some half => { log with uncopied := log.uncopied.erase half }
      | _, none => log
  | _ => log

/-- The host and the device with the history. -/
def copyStep : CopySystem × CopyLog → CopyEvent → Option (CopySystem × CopyLog) :=
  traced CopySystem.step CopyLog.record

/-- The state and history after construction. -/
def copyStart (p : CopyStart) : CopySystem × CopyLog := (.construct p, ⟨none, []⟩)

/-- `offset` and `bytes` are a `size_t`, and no object has 2^63 bytes. -/
def CopyEvent.Sized : CopyEvent → Prop
  | .CopyToFPGA offset _ bytes | .CopyFromFPGA offset _ bytes =>
      offset < 2 ^ 64 ∧ bytes < 2 ^ 63
  | _ => True

/-- The pages of a call have numbers of 32 bits. -/
def CopyEvent.InPages : CopyEvent → Prop
  | .CopyToFPGA offset _ bytes | .CopyFromFPGA offset _ bytes =>
      offset / 4096 + (bytes + 4095) / 4096 ≤ 2 ^ 32
  | _ => True

/-- The done counters do not wrap. -/
def CopySystem.NoWrap (s : CopySystem) : CopyEvent → Prop
  | .done =>
      s.device.dramWriteBurstDoneCount + 1 < 2 ^ 32 ∧ s.device.dramReadBurstDoneCount + 1 < 2 ^ 32
  | _ => True

/-- A returned call leaves what it has to; a half is neither filled nor handed to the device
while a command on it is not done or its data is not copied out; and no wait goes on once the
device has done its commands.
-/
structure CopyLog.Copies (s : CopySystem) (log : CopyLog) : Prop where
  leaves : s.thread = .idle → ∀ call, log.call = some call → call.Leaves s
  exclusive : ∀ half, s.touches = some half →
    (∀ cmd ∈ s.device.cmds, cmd.half ≠ half) ∧ half ∉ log.uncopied
  returns : s.device.cmds = [] → s.waiting = false

-----------------------------------------------------------------------------------------
-- Chunks
-----------------------------------------------------------------------------------------

/-- A small value is a `size_t`. -/
theorem size_t_of_lt {n : Nat} (small : n < 2 ^ 64) : size_t n = n := Nat.mod_eq_of_lt small

/-- A difference of `size_t` values that does not wrap. -/
theorem size_t_sub {a b : Nat} (le : b ≤ a) (small : a < 2 ^ 64)
    : size_t (a + 2 ^ 64 - b) = a - b := by
  rw [size_t, Nat.sub_add_comm le, Nat.add_mod_right]
  exact Nat.mod_eq_of_lt (Nat.lt_of_le_of_lt (Nat.sub_le a b) small)

namespace CopyCall

variable (call : CopyCall)

/-- The number of chunks of half a DMA buffer. -/
def chunks : Nat := (call.total + 524287) / 524288

/-- The bytes of chunk `c`; all chunks but the last one fill a half. -/
def chunkBytes (c : Nat) : Nat := min 524288 (call.total - c * 524288)

/-- A command that moves chunk `c`. -/
structure IsChunk (cmd : PageCommand) (c : Nat) : Prop where
  toHost : cmd.toHost = call.toHost
  hostAddr : cmd.hostAddr = c % 2 * 524288
  fpgaAddr : cmd.fpgaAddr = call.base + c * 524288
  bytes : cmd.bytes = call.chunkBytes c

/-- The bytes of a chunk lie within the pages of the call. -/
theorem chunk_within {c k : Nat} (within : k < call.chunkBytes c)
    : c * 524288 + k < call.total ∧ k < 524288 := by
  unfold chunkBytes at within
  omega

/-- A chunk with another behind it fills a half. -/
theorem chunkBytes_full {c : Nat} (more : c + 1 < call.chunks)
    : call.chunkBytes c = 524288 := by
  unfold chunks at more
  unfold chunkBytes
  omega

/-- Each byte of the pages lies in the chunk of its half. -/
theorem mem_chunk {j : Nat} (within : j < call.total)
    : j / 524288 < call.chunks ∧ j % 524288 < call.chunkBytes (j / 524288) := by
  unfold chunks chunkBytes
  omega

/-- A chunk goes on to where the next one begins, or to the end. -/
theorem chunk_end (c : Nat)
    : min (c * 524288) call.total + call.chunkBytes c = min ((c + 1) * 524288) call.total := by
  unfold chunkBytes
  rw [Nat.succ_mul]
  generalize c * 524288 = begins
  omega

/-- What a chunk leaves of the pages. -/
theorem chunk_rest (c : Nat)
    : call.total - c * 524288 - call.chunkBytes c = call.total - (c + 1) * 524288 := by
  unfold chunkBytes
  rw [Nat.succ_mul]
  generalize c * 524288 = begins
  omega

/-- A chunk begins within the bytes of the call. -/
theorem chunk_begins {c : Nat} (below : c < call.chunks) : c * 524288 < call.bytes := by
  unfold chunks total at below
  omega

/-- The chunks are the whole. -/
theorem total_le_chunks : call.total ≤ call.chunks * 524288 := by
  unfold chunks
  omega

end CopyCall

/-- The half of a command is that of its chunk. -/
theorem CopyCall.IsChunk.half {call : CopyCall} {cmd : PageCommand} {c : Nat}
    (isChunk : call.IsChunk cmd c)
    : cmd.half = c % 2 := by
  rw [PageCommand.half, isChunk.hostAddr]
  exact Nat.mul_div_cancel _ (by decide)

-----------------------------------------------------------------------------------------
-- The device
-----------------------------------------------------------------------------------------

/-- What the object remembers of the counter of a direction. -/
def CopySystem.doneTotal (s : CopySystem) (toHost : Bool) : Nat :=
  if toHost then s.m_read_done_total else s.m_write_done_total

/-- The counter of a direction. -/
def CopyDevice.doneCount (d : CopyDevice) (toHost : Bool) : Nat :=
  if toHost then d.dramReadBurstDoneCount else d.dramWriteBurstDoneCount

/-- The first `done` chunks of the call are counted done, and the commands of those up to
`issued` wait at the device.
-/
structure CopyCall.Issued (call : CopyCall) (s : CopySystem) (done issued : Nat) : Prop where
  le : done ≤ issued
  counted : s.device.doneCount call.toHost = s.doneTotal call.toHost + done
  other : s.device.doneCount (!call.toHost) = s.doneTotal (!call.toHost)
  length : s.device.cmds.length = issued - done
  chunk : ∀ {j : Nat} {cmd : PageCommand},
    s.device.cmds[j]? = some cmd → call.IsChunk cmd (done + j)

/-- Marking bytes moves no command. -/
theorem CopyCall.IsChunk.mark {call : CopyCall} {cmd : PageCommand} {c : Nat}
    (isChunk : call.IsChunk cmd c) (k n : Nat)
    : call.IsChunk (cmd.mark k n) c :=
  ⟨isChunk.toHost, isChunk.hostAddr, isChunk.fpgaAddr, isChunk.bytes⟩

/-- What the device changes when it moves bytes `k` to `k + n` of its command `j`. -/
structure CopySystem.Moves (s s' : CopySystem) (cmd : PageCommand) (j k n : Nat) : Prop where
  found : s.device.cmds[j]? = some cmd
  within : k + n ≤ cmd.bytes
  cmds : s'.device.cmds = s.device.cmds.set j (cmd.mark k n)
  fpga : s'.device.fpga =
    if cmd.toHost then s.device.fpga
    else memcpy s.device.fpga (cmd.fpgaAddr + k) s.dmaBuffer (cmd.hostAddr + k) n
  dmaBuffer : s'.dmaBuffer =
    if cmd.toHost then memcpy s.dmaBuffer (cmd.hostAddr + k) s.device.fpga (cmd.fpgaAddr + k) n
    else s.dmaBuffer
  thread : s'.thread = s.thread
  buffer : s'.buffer = s.buffer
  hostMemTemp : s'.device.hostMemTemp = s.device.hostMemTemp
  fpgaMemTemp : s'.device.fpgaMemTemp = s.device.fpgaMemTemp
  doneCount : s'.device.doneCount = s.device.doneCount
  doneTotal : s'.doneTotal = s.doneTotal

theorem CopySystem.move_cases {s s' : CopySystem} {j k n : Nat} (moves : s.move j k n = some s')
    : ∃ cmd, s.Moves s' cmd j k n := by
  simp only [CopySystem.move, Option.bind_eq_bind, Option.pure_def,
    Option.bind_eq_some_iff] at moves
  obtain ⟨cmd, found, moves⟩ := moves
  refine ⟨cmd, ?_⟩
  split at moves
  next within =>
    split at moves
    next direction =>
      cases moves
      exact ⟨found, within, rfl, (if_pos direction).symm, (if_pos direction).symm, rfl, rfl,
        rfl, rfl, rfl, rfl⟩
    next direction =>
      cases moves
      exact ⟨found, within, rfl, (if_neg direction).symm, (if_neg direction).symm, rfl, rfl,
        rfl, rfl, rfl, rfl⟩
  next => cases moves

/-- What the device does when it counts its oldest command done. -/
theorem CopyDevice.done_cases {d d' : CopyDevice} (counts : d.done = some d')
    : ∃ cmd rest, d.cmds = cmd :: rest ∧ (∀ k < cmd.bytes, cmd.moved k = true)
        ∧ d'.cmds = rest ∧ d'.fpga = d.fpga ∧ d'.hostMemTemp = d.hostMemTemp
        ∧ d'.fpgaMemTemp = d.fpgaMemTemp
        ∧ d'.doneCount cmd.toHost = uint32_t (d.doneCount cmd.toHost + 1)
        ∧ d'.doneCount (!cmd.toHost) = d.doneCount (!cmd.toHost) := by
  unfold CopyDevice.done at counts
  split at counts
  next => cases counts
  next cmd rest oldest =>
    refine ⟨cmd, rest, oldest, ?_⟩
    split at counts
    next finished =>
      have moved (k : Nat) (within : k < cmd.bytes) : cmd.moved k = true :=
        List.all_eq_true.mp finished k (List.mem_range.mpr within)
      cases direction : cmd.toHost with
      | true =>
          simp only [direction, if_true, Option.some.injEq] at counts
          subst counts
          exact ⟨moved, rfl, rfl, rfl, rfl, rfl, rfl⟩
      | false =>
          simp only [direction, Bool.false_eq_true, if_false, Option.some.injEq] at counts
          subst counts
          exact ⟨moved, rfl, rfl, rfl, rfl, rfl, rfl⟩
    next => cases counts

/-- A command at the device, after bytes of one are marked: that one, or another. -/
theorem marked_cases {cmds : List PageCommand} {cmd other : PageCommand} {i j k n : Nat}
    (marked : (cmds.set j (cmd.mark k n))[i]? = some other)
    : (i = j ∧ other = cmd.mark k n) ∨ cmds[i]? = some other := by
  rw [List.getElem?_set] at marked
  split at marked
  next same =>
    split at marked
    next =>
      cases marked
      exact .inl ⟨same.symm, rfl⟩
    next => cases marked
  next => exact .inr marked

/-- Moving bytes keeps the commands. -/
theorem CopyCall.Issued.move {call : CopyCall} {s s' : CopySystem} {cmd : PageCommand}
    {done issued j k n : Nat} (inv : call.Issued s done issued) (moves : s.Moves s' cmd j k n)
    : call.Issued s' done issued := by
  obtain ⟨le, counted, other, length, chunk⟩ := inv
  refine ⟨le, ?_, ?_, ?_, ?_⟩
  · rw [moves.doneCount, moves.doneTotal, counted]
  · rw [moves.doneCount, moves.doneTotal, other]
  · rw [moves.cmds, List.length_set, length]
  · intro i later position
    rw [moves.cmds] at position
    rcases marked_cases position with ⟨rfl, rfl⟩ | same
    · exact (chunk moves.found).mark k n
    · exact chunk same

/-- What the object and the device count, and the commands, are all that matters. -/
theorem CopyCall.Issued.congr {call : CopyCall} {s s' : CopySystem} {done issued : Nat}
    (inv : call.Issued s done issued) (cmds : s'.device.cmds = s.device.cmds)
    (doneCount : s'.device.doneCount = s.device.doneCount)
    (doneTotal : s'.doneTotal = s.doneTotal)
    : call.Issued s' done issued := by
  obtain ⟨le, counted, other, length, chunk⟩ := inv
  rw [← doneCount, ← doneTotal] at counted other
  rw [← cmds] at length chunk
  exact ⟨le, counted, other, length, chunk⟩

/-- Counting a command done. -/
theorem CopyCall.Issued.done {call : CopyCall} {s : CopySystem} {device : CopyDevice}
    {done issued : Nat} (inv : call.Issued s done issued)
    (counts : s.device.done = some device) (noWrap : s.NoWrap .done)
    : call.Issued { s with device } (done + 1) issued := by
  obtain ⟨cmd, rest, oldest, _, cmds, _, _, _, counter, other⟩ := CopyDevice.done_cases counts
  have direction : cmd.toHost = call.toHost :=
    (inv.chunk (show s.device.cmds[0]? = some cmd by simp [oldest])).toHost
  rw [direction] at counter other
  have length := inv.length
  rw [oldest, List.length_cons] at length
  have small : s.device.doneCount call.toHost + 1 < 2 ^ 32 := by
    obtain ⟨writes, reads⟩ := noWrap
    unfold CopyDevice.doneCount
    split
    · exact reads
    · exact writes
  refine ⟨by omega, ?_, other.trans inv.other, ?_, ?_⟩
  · rw [counter, uint32_t, Nat.mod_eq_of_lt small, inv.counted]
    rfl
  · rw [cmds]
    omega
  · intro j later position
    rw [cmds] at position
    have isChunk := inv.chunk (show s.device.cmds[j + 1]? = some later by simpa [oldest] using position)
    rwa [show done + (j + 1) = done + 1 + j by omega] at isChunk

-----------------------------------------------------------------------------------------
-- Data on the way to the FPGA
-----------------------------------------------------------------------------------------

/-- A copied byte. -/
theorem memcpy_inside (dst : ByteMap) (pos : Nat) (src : ByteMap) (start : Nat) {n x : Nat}
    (inside : pos ≤ x ∧ x < pos + n)
    : memcpy dst pos src start n x = src (start + (x - pos)) :=
  if_pos inside

/-- A byte that is not copied over. -/
theorem memcpy_outside (dst : ByteMap) (pos : Nat) (src : ByteMap) (start : Nat) {n x : Nat}
    (outside : ¬(pos ≤ x ∧ x < pos + n))
    : memcpy dst pos src start n x = dst x :=
  if_neg outside

/-- A byte is marked if it was, or lies in the range that is marked. -/
theorem PageCommand.moved_mark {cmd : PageCommand} {k n x : Nat}
    : (cmd.mark k n).moved x = true ↔ cmd.moved x = true ∨ (k ≤ x ∧ x < k + n) := by
  simp [PageCommand.mark]

/-- The halves hold the chunks from `done` up to `filled`, moved bytes of waiting commands and
the chunks below `done` are in the FPGA memory, and its other pages are as they were.
-/
structure CopyCall.Written (call : CopyCall) (s : CopySystem) (done filled : Nat) : Prop where
  filled : ∀ c, done ≤ c → c < filled → ∀ k < call.chunkBytes c,
    s.dmaBuffer (c % 2 * 524288 + k) = call.padded (c * 524288 + k)
  moved : ∀ {j : Nat} {cmd : PageCommand}, s.device.cmds[j]? = some cmd →
    ∀ k < call.chunkBytes (done + j), cmd.moved k = true →
      s.device.fpga (call.base + ((done + j) * 524288 + k))
        = call.padded ((done + j) * 524288 + k)
  complete : ∀ j < call.total, j < done * 524288 →
    s.device.fpga (call.base + j) = call.padded j
  frame : ∀ a, ¬(call.base ≤ a ∧ a < call.base + call.total) →
    s.device.fpga a = call.fpga a

/-- The device moves bytes of a filled chunk. -/
theorem CopyCall.Written.move {call : CopyCall} {s s' : CopySystem} {cmd : PageCommand}
    {done issued filled j k n : Nat} (inv : call.Written s done filled)
    (queued : call.Issued s done issued) (toFPGA : call.toHost = false)
    (ready : issued ≤ filled) (moves : s.Moves s' cmd j k n)
    : call.Written s' done filled := by
  obtain ⟨found, within, cmds, fpga, dmaBuffer, _⟩ := moves
  obtain ⟨toHost, hostAddr, fpgaAddr, bytes⟩ := queued.chunk found
  have index : j < s.device.cmds.length := (List.getElem?_eq_some_iff.mp found).1
  have waiting : done + j < filled := by
    have := queued.length
    have := queued.le
    omega
  rw [bytes] at within
  rw [if_neg (by rw [toHost, toFPGA]; exact Bool.false_ne_true), hostAddr, fpgaAddr] at fpga
  rw [if_neg (by rw [toHost, toFPGA]; exact Bool.false_ne_true)] at dmaBuffer
  have value (y : Nat)
      : s'.device.fpga (call.base + y)
        = if (done + j) * 524288 + k ≤ y ∧ y < (done + j) * 524288 + k + n then call.padded y
          else s.device.fpga (call.base + y) := by
    rw [fpga]
    by_cases inside : (done + j) * 524288 + k ≤ y ∧ y < (done + j) * 524288 + k + n
    · rw [memcpy_inside _ _ _ _ (by omega), if_pos inside,
        show (done + j) % 2 * 524288 + k + (call.base + y - (call.base + (done + j) * 524288 + k))
          = (done + j) % 2 * 524288 + (y - (done + j) * 524288) by omega,
        inv.filled (done + j) (by omega) waiting _ (by omega)]
      exact congrArg call.padded (by omega)
    · rw [memcpy_outside _ _ _ _ (by omega), if_neg inside]
  constructor
  case filled =>
    rw [dmaBuffer]
    exact inv.filled
  case moved =>
    intro i other position x short isMoved
    rw [cmds] at position
    rw [value]
    split
    next => rfl
    next outside =>
      rcases marked_cases position with ⟨rfl, rfl⟩ | same
      · rcases PageCommand.moved_mark.mp isMoved with before | now
        · exact inv.moved found x short before
        · omega
      · exact inv.moved same x short isMoved
  case complete =>
    intro y inside below
    rw [value]
    split
    next => rfl
    next => exact inv.complete y inside below
  case frame =>
    intro a outside
    have last : n = 0 ∨ (done + j) * 524288 + (k + n - 1) < call.total := by
      by_cases none : n = 0
      · exact .inl none
      · exact .inr (call.chunk_within (show k + n - 1 < call.chunkBytes (done + j) by omega)).1
    rw [fpga, memcpy_outside _ _ _ _ (by omega)]
    exact inv.frame a outside

/-- A chunk that is counted done is in the FPGA memory. -/
theorem CopyCall.Written.done {call : CopyCall} {s : CopySystem} {device : CopyDevice}
    {done issued filled : Nat} (inv : call.Written s done filled)
    (queued : call.Issued s done issued) (counts : s.device.done = some device)
    : call.Written { s with device } (done + 1) filled := by
  obtain ⟨cmd, rest, oldest, allMoved, cmds, fpga, _⟩ := CopyDevice.done_cases counts
  have first : s.device.cmds[0]? = some cmd := by simp [oldest]
  constructor
  case filled => exact fun c from_ => inv.filled c (by omega)
  case moved =>
    intro j later position k short isMoved
    rw [cmds] at position
    have earlier := inv.moved (show s.device.cmds[j + 1]? = some later by simpa [oldest] using position)
    rw [show done + (j + 1) = done + 1 + j by omega] at earlier
    rw [fpga]
    exact earlier k short isMoved
  case complete =>
    intro j inside below
    rw [fpga]
    by_cases before : j < done * 524288
    · exact inv.complete j inside before
    · obtain ⟨_, short⟩ := call.mem_chunk inside
      rw [show j / 524288 = done by omega] at short
      have value := inv.moved first (j % 524288) short
        (allMoved _ (by rw [(queued.chunk first).bytes]; exact short))
      rwa [show (done + 0) * 524288 + j % 524288 = j by omega] at value
  case frame =>
    intro a outside
    rw [fpga]
    exact inv.frame a outside

-----------------------------------------------------------------------------------------
-- Data on the way to the host
-----------------------------------------------------------------------------------------

/-- Moved bytes of waiting commands and the chunks from `copied` up to `done` are in their
halves, the chunks below `copied` are in the caller's buffer, and the FPGA memory is as it was.
-/
structure CopyCall.Fetched (call : CopyCall) (s : CopySystem) (copied done : Nat) : Prop where
  moved : ∀ {j : Nat} {cmd : PageCommand}, s.device.cmds[j]? = some cmd →
    ∀ k < call.chunkBytes (done + j), cmd.moved k = true →
      s.dmaBuffer ((done + j) % 2 * 524288 + k)
        = call.fpga (call.base + ((done + j) * 524288 + k))
  arrived : ∀ c, copied ≤ c → c < done → ∀ k < call.chunkBytes c,
    s.dmaBuffer (c % 2 * 524288 + k) = call.fpga (call.base + (c * 524288 + k))
  returned : ∀ j < copied * 524288, s.buffer j = call.fpga (call.base + j)
  fpga : s.device.fpga = call.fpga

/-- The device moves bytes into a half that holds no other chunk. -/
theorem CopyCall.Fetched.move {call : CopyCall} {s s' : CopySystem} {cmd : PageCommand}
    {copied done issued j k n : Nat} (inv : call.Fetched s copied done)
    (queued : call.Issued s done issued) (toHost : call.toHost = true) (le : copied ≤ done)
    (recent : issued ≤ copied + 2) (moves : s.Moves s' cmd j k n)
    : call.Fetched s' copied done := by
  obtain ⟨found, within, cmds, fpga, dmaBuffer, _, buffer, _⟩ := moves
  obtain ⟨direction, hostAddr, fpgaAddr, bytes⟩ := queued.chunk found
  have index : j < s.device.cmds.length := (List.getElem?_eq_some_iff.mp found).1
  have length := queued.length
  rw [bytes] at within
  rw [if_pos (direction.trans toHost)] at fpga
  rw [if_pos (direction.trans toHost), hostAddr, fpgaAddr] at dmaBuffer
  have half : call.chunkBytes (done + j) ≤ 524288 := Nat.min_le_left ..
  have value (c x : Nat) (near : copied ≤ c ∧ c < issued) (short : x < call.chunkBytes c)
      : s'.dmaBuffer (c % 2 * 524288 + x)
        = if c = done + j ∧ k ≤ x ∧ x < k + n then call.fpga (call.base + (c * 524288 + x))
          else s.dmaBuffer (c % 2 * 524288 + x) := by
    have small := (call.chunk_within short).2
    rw [dmaBuffer]
    by_cases inside : c = done + j ∧ k ≤ x ∧ x < k + n
    · obtain ⟨rfl, above, below⟩ := inside
      rw [memcpy_inside _ _ _ _ (by omega), if_pos ⟨rfl, above, below⟩, inv.fpga]
      exact congrArg call.fpga (by omega)
    · rw [if_neg inside]
      exact memcpy_outside _ _ _ _ (by omega)
  constructor
  case moved =>
    intro i other position x short isMoved
    rw [cmds] at position
    have bound := (List.getElem?_eq_some_iff.mp position).1
    rw [List.length_set] at bound
    rw [value (done + i) x (by omega) short]
    split
    next => rfl
    next outside =>
      rcases marked_cases position with ⟨rfl, rfl⟩ | same
      · rcases PageCommand.moved_mark.mp isMoved with before | now
        · exact inv.moved found x short before
        · exact absurd ⟨rfl, now⟩ outside
      · exact inv.moved same x short isMoved
  case arrived =>
    intro c from_ below x short
    have := queued.le
    rw [value c x (by omega) short, if_neg (by omega)]
    exact inv.arrived c from_ below x short
  case returned =>
    rw [buffer]
    exact inv.returned
  case fpga => exact fpga.trans inv.fpga

/-- A chunk that is counted done is in its half. -/
theorem CopyCall.Fetched.done {call : CopyCall} {s : CopySystem} {device : CopyDevice}
    {copied done issued : Nat} (inv : call.Fetched s copied done)
    (queued : call.Issued s done issued) (counts : s.device.done = some device)
    : call.Fetched { s with device } copied (done + 1) := by
  obtain ⟨cmd, rest, oldest, allMoved, cmds, fpga, _⟩ := CopyDevice.done_cases counts
  have first : s.device.cmds[0]? = some cmd := by simp [oldest]
  constructor
  case moved =>
    intro j later position k short isMoved
    rw [cmds] at position
    have earlier := inv.moved (show s.device.cmds[j + 1]? = some later by simpa [oldest] using position)
    rw [show done + (j + 1) = done + 1 + j by omega] at earlier
    exact earlier k short isMoved
  case arrived =>
    intro c from_ below k short
    by_cases before : c < done
    · exact inv.arrived c from_ before k short
    · obtain rfl : c = done := by omega
      exact inv.moved first k short (allMoved k (by rw [(queued.chunk first).bytes]; exact short))
  case returned => exact inv.returned
  case fpga => exact fpga.trans inv.fpga

-----------------------------------------------------------------------------------------
-- The host's registers
-----------------------------------------------------------------------------------------

section Registers

variable (s : CopySystem) (data : Nat)

theorem userWriteWord_host
    : s.userWriteWord m_host_mem_arg data
      = { s with device.hostMemTemp := uint32_t data } := rfl

theorem userWriteWord_fpga
    : s.userWriteWord m_fpga_mem_arg data
      = { s with device.fpgaMemTemp := uint32_t data } := rfl

end Registers

/-- A new command is of the next chunk. -/
theorem CopyCall.Issued.push {call : CopyCall} {s s' : CopySystem} {cmd : PageCommand}
    {done issued : Nat} (inv : call.Issued s done issued) (isChunk : call.IsChunk cmd issued)
    (cmds : s'.device.cmds = s.device.cmds ++ [cmd])
    (doneCount : s'.device.doneCount = s.device.doneCount)
    (doneTotal : s'.doneTotal = s.doneTotal)
    : call.Issued s' done (issued + 1) := by
  obtain ⟨le, counted, other, length, chunk⟩ := inv
  refine ⟨by omega, ?_, ?_, ?_, ?_⟩
  · rw [doneCount, doneTotal, counted]
  · rw [doneCount, doneTotal, other]
  · rw [cmds, List.length_append, length, List.length_singleton]
    omega
  · intro j later position
    rw [cmds, List.getElem?_append] at position
    split at position
    next => exact chunk position
    next =>
      obtain ⟨bound, rfl⟩ := List.getElem?_eq_some_iff.mp position
      have last : done + j = issued := by
        rw [List.length_singleton] at bound
        omega
      simpa [last] using isChunk

/-- A command that has moved nothing says nothing about bytes. -/
theorem moved_push {cmds : List PageCommand} {cmd later : PageCommand} {j k : Nat}
    (unmoved : cmd.moved = fun _ => false) (position : (cmds ++ [cmd])[j]? = some later)
    (isMoved : later.moved k = true)
    : cmds[j]? = some later := by
  rw [List.getElem?_append] at position
  split at position
  next => exact position
  next =>
    obtain ⟨bound, rfl⟩ := List.getElem?_eq_some_iff.mp position
    simp [unmoved] at isMoved

-----------------------------------------------------------------------------------------
-- The loop
-----------------------------------------------------------------------------------------

/-- The commands issued when iteration `i` is at a point. -/
def CopyPoint.issued (point : CopyPoint) (i : Nat) : Nat :=
  match point with
  | .poll => i + 1
  | _ => i

/-- The chunks filled when iteration `i` of `CopyToFPGA` is at a point. -/
def CopyPoint.filled (point : CopyPoint) (i : Nat) : Nat :=
  match point with
  | .loop | .last => i
  | _ => i + 1

/-- The chunk of the iteration is chosen. -/
def CopyPoint.inside : CopyPoint → Bool
  | .loop | .last => false
  | _ => true

/-- The locals of a call at a point tell its chunk. -/
structure CopyCall.Locals (call : CopyCall) (point : CopyPoint) (l : CopyLocals) : Prop where
  inPages : call.offset / 4096 + (call.bytes + 4095) / 4096 ≤ 2 ^ 32
  within : l.i ≤ call.chunks
  cnt : l.cnt = call.chunks
  offset : l.offset = call.base + min (l.i * 524288) call.total
  bytes : l.bytes = call.total - l.i * 524288
  more : point.inside = true → l.i < call.chunks
  curbyte : point.inside = true → l.curbyte = call.chunkBytes l.i
  bufoff : point.inside = true → l.bufoff = l.i % 2 * 524288
  last : point = .last → l.i = call.chunks

/-- Where a call is in its loop: the registers hold the arguments that are written, the
commands are issued up to this point, and at most the chunk before this one is not counted
done.
-/
structure CopyCall.Looping (call : CopyCall) (s : CopySystem) (point : CopyPoint)
    (l : CopyLocals) (done : Nat) : Prop extends call.Locals point l where
  small : ∀ toHost, s.device.doneCount toHost < 2 ^ 32
  hostArg : point = .fpgaArg ∨ point = .command → s.device.hostMemTemp = l.i % 2 * 128
  fpgaArg : point = .command → s.device.fpgaMemTemp = call.base / 4096 + l.i * 128
  recent : l.i ≤ done + 1
  queued : call.Issued s done (point.issued l.i)

namespace CopyCall

variable {call : CopyCall}

/-- The pages of a call end below 2^44. -/
theorem end_bound (inPages : call.offset / 4096 + (call.bytes + 4095) / 4096 ≤ 2 ^ 32)
    : call.base + call.total ≤ 2 ^ 44 := by
  unfold base total
  omega

/-- The bytes of the pages are a `size_t`. -/
theorem total_small (inPages : call.offset / 4096 + (call.bytes + 4095) / 4096 ≤ 2 ^ 32)
    : call.total < 2 ^ 64 :=
  Nat.lt_of_le_of_lt (Nat.le_trans (Nat.le_add_left _ _) (end_bound inPages)) (by decide)

/-- What is left of the caller's bytes is a `size_t`. -/
theorem left_small (call : CopyCall)
    (inPages : call.offset / 4096 + (call.bytes + 4095) / 4096 ≤ 2 ^ 32) (j : Nat)
    : call.bytes - j < 2 ^ 64 := by
  have rounded : call.bytes ≤ call.total := by
    unfold total
    omega
  exact Nat.lt_of_le_of_lt (Nat.le_trans (Nat.sub_le _ _) rounded) (total_small inPages)

/-- With another chunk behind it, a chunk takes half a buffer of the caller's bytes. -/
theorem chunk_leaves (call : CopyCall) {c : Nat} (begins : (c + 1) * 524288 < call.bytes)
    : 524288 ≤ call.bytes - c * 524288 := by
  omega

/-- An offset within the pages is a `size_t`. -/
theorem size_t_within (inPages : call.offset / 4096 + (call.bytes + 4095) / 4096 ≤ 2 ^ 32)
    (j : Nat)
    : size_t (call.base + min j call.total) = call.base + min j call.total := by
  have end_ := end_bound inPages
  have inside := Nat.add_le_add_left (Nat.min_le_right j call.total) call.base
  exact size_t_of_lt (Nat.lt_of_le_of_lt (Nat.le_trans inside end_) (by decide))

/-- The locals a call starts with. -/
theorem Locals.enter (inPages : call.offset / 4096 + (call.bytes + 4095) / 4096 ≤ 2 ^ 32)
    : call.Locals .loop (.enter call.offset call.bytes) := by
  have aligned : (CopyLocals.enter call.offset call.bytes).offset = call.base := by
    change (if call.offset % 4096 ≠ 0 then size_t (call.offset / 4096 * 4096) else call.offset)
      = call.offset / 4096 * 4096
    unfold size_t
    split <;> omega
  have whole : (CopyLocals.enter call.offset call.bytes).bytes = call.total := by
    change (if call.bytes % 4096 ≠ 0 then size_t ((call.bytes / 4096 + 1) * 4096) else call.bytes)
      = (call.bytes + 4095) / 4096 * 4096
    unfold size_t
    split <;> omega
  have cnt : (CopyLocals.enter call.offset call.bytes).cnt
      = (CopyLocals.enter call.offset call.bytes).bytes / 524288
        + (if (CopyLocals.enter call.offset call.bytes).bytes % 524288 ≠ 0 then 1 else 0) := rfl
  have first : (CopyLocals.enter call.offset call.bytes).i = 0 := rfl
  constructor
  case inPages => exact inPages
  case within => exact Nat.zero_le _
  case cnt =>
    rw [cnt, whole, chunks]
    split <;> omega
  case offset => rw [aligned, first, Nat.zero_mul, Nat.zero_min, Nat.add_zero]
  case bytes => rw [whole, first, Nat.zero_mul, Nat.sub_zero]
  case more | curbyte | bufoff => exact fun inside => absurd inside Bool.false_ne_true
  case last => exact fun other => nomatch other

/-- The iteration chooses its chunk. -/
theorem Locals.choose {l : CopyLocals} (inv : call.Locals .loop l) (more : l.i < l.cnt)
    : call.Locals .hostArg l.chunk := by
  have bytes := inv.bytes
  refine ⟨inv.inPages, inv.within, inv.cnt, inv.offset, inv.bytes, ?_, ?_, ?_, nofun⟩
  · intro _
    rw [← inv.cnt]
    exact more
  · intro _
    simp only [CopyLocals.chunk, CopyLocals.nextBytes, m_max_dma_bytes, bytes, chunkBytes]
    split <;> omega
  · intro _
    simp only [CopyLocals.chunk, CopyLocals.halfOff, m_max_dma_bytes]
    split <;> omega

/-- The locals stay as they are while the iteration works on its chunk. -/
theorem Locals.stay {point point' : CopyPoint} {l : CopyLocals} (inv : call.Locals point l)
    (inside : point.inside = true) (still : point'.inside = true)
    : call.Locals point' l := by
  refine ⟨inv.inPages, inv.within, inv.cnt, inv.offset, inv.bytes, fun _ => inv.more inside,
    fun _ => inv.curbyte inside, fun _ => inv.bufoff inside, ?_⟩
  rintro rfl
  cases still

/-- The next iteration. -/
theorem Locals.next {l l' : CopyLocals} (inv : call.Locals .poll l) (index : l'.i = l.i + 1)
    (cnt : l'.cnt = l.cnt) (offset : l'.offset = size_t (l.offset + l.curbyte))
    (bytes : l'.bytes = size_t (l.bytes + 2 ^ 64 - l.curbyte))
    : call.Locals .loop l' := by
  have more := inv.more rfl
  have curbyte := inv.curbyte rfl
  have offset' := inv.offset
  have bytes' := inv.bytes
  constructor
  case inPages => exact inv.inPages
  case within =>
    rw [index]
    exact more
  case cnt => exact cnt.trans inv.cnt
  case offset =>
    rw [offset, offset', curbyte, index, Nat.add_assoc, chunk_end]
    exact size_t_within inv.inPages _
  case bytes =>
    have fits : call.chunkBytes l.i ≤ call.total - l.i * 524288 := Nat.min_le_right ..
    have small : call.total - l.i * 524288 < 2 ^ 64 :=
      Nat.lt_of_le_of_lt (Nat.sub_le _ _) (total_small inv.inPages)
    rw [bytes, bytes', curbyte, index, size_t_sub fits small, chunk_rest]
  case more | curbyte | bufoff => exact fun inside => absurd inside Bool.false_ne_true
  case last => exact fun other => nomatch other

/-- The loop ends behind the last chunk. -/
theorem Locals.leave {l : CopyLocals} (inv : call.Locals .loop l) (noMore : ¬l.i < l.cnt)
    : call.Locals .last l := by
  have within := inv.within
  have cnt := inv.cnt
  refine ⟨inv.inPages, within, cnt, inv.offset, inv.bytes, nofun, nofun, nofun, ?_⟩
  intro _
  omega

/-- A call enters its loop at the first chunk. -/
theorem Looping.enter {s s' : CopySystem}
    (inPages : call.offset / 4096 + (call.bytes + 4095) / 4096 ≤ 2 ^ 32)
    (idle : s.device.cmds = []) (counted : s.device.doneCount = s.doneTotal)
    (small : ∀ toHost, s.device.doneCount toHost < 2 ^ 32) (device : s'.device = s.device)
    (doneTotal : s'.doneTotal = s.doneTotal)
    : call.Looping s' .loop (.enter call.offset call.bytes) 0 := by
  refine ⟨.enter inPages, ?_, nofun, nofun, Nat.zero_le _, ?_⟩
  · rw [device]
    exact small
  · have queued : call.Issued s 0 0 := by
      refine ⟨Nat.le_refl _, congrFun counted _, congrFun counted _, congrArg List.length idle, ?_⟩
      intro j cmd position
      simp [idle] at position
    exact queued.congr (congrArg _ device) (congrArg _ device) doneTotal

/-- A step that keeps the device keeps what is issued. -/
theorem Looping.sameDevice {s s' : CopySystem} {point point' : CopyPoint} {l l' : CopyLocals}
    {done : Nat} (inv : call.Looping s point l done) (locals : call.Locals point' l')
    (early : point' = .loop ∨ point' = .hostArg ∨ point' = .last)
    (issued : point'.issued l'.i = point.issued l.i) (recent : l'.i ≤ done + 1)
    (device : s'.device = s.device) (doneTotal : s'.doneTotal = s.doneTotal)
    : call.Looping s' point' l' done := by
  refine ⟨locals, ?_, ?_, ?_, recent, ?_⟩
  · rw [device]
    exact inv.small
  · rcases early with rfl | rfl | rfl <;> exact nofun
  · rcases early with rfl | rfl | rfl <;> exact nofun
  · rw [issued]
    exact inv.queued.congr (congrArg _ device) (congrArg _ device) doneTotal

/-- The iteration writes its place in the DMA buffer to the first register. -/
theorem Looping.writeHost {s s' : CopySystem} {l : CopyLocals} {done : Nat}
    (inv : call.Looping s .hostArg l done)
    (written : s'.device.hostMemTemp = uint32_t (l.bufoff / m_fpga_alignment))
    (cmds : s'.device.cmds = s.device.cmds)
    (doneCount : s'.device.doneCount = s.device.doneCount)
    (doneTotal : s'.doneTotal = s.doneTotal)
    : call.Looping s' .fpgaArg l done := by
  have bufoff := inv.bufoff rfl
  refine ⟨inv.stay rfl rfl, ?_, ?_, nofun, inv.recent,
    inv.queued.congr cmds doneCount doneTotal⟩
  · rw [doneCount]
    exact inv.small
  · intro _
    rw [written, bufoff, uint32_t, m_fpga_alignment]
    omega

/-- The iteration writes its FPGA page to the second register. -/
theorem Looping.writeFPGA {s s' : CopySystem} {l : CopyLocals} {done : Nat}
    (inv : call.Looping s .fpgaArg l done)
    (written : s'.device.fpgaMemTemp = uint32_t (l.offset / m_fpga_alignment))
    (hostMemTemp : s'.device.hostMemTemp = s.device.hostMemTemp)
    (cmds : s'.device.cmds = s.device.cmds)
    (doneCount : s'.device.doneCount = s.device.doneCount)
    (doneTotal : s'.doneTotal = s.doneTotal)
    : call.Looping s' .command l done := by
  have inPages := inv.inPages
  have offset := inv.offset
  have more := inv.more rfl
  refine ⟨inv.stay rfl rfl, ?_, ?_, ?_, inv.recent, inv.queued.congr cmds doneCount doneTotal⟩
  · rw [doneCount]
    exact inv.small
  · intro _
    rw [hostMemTemp]
    exact inv.hostArg (.inl rfl)
  · intro _
    have begins := call.chunk_begins more
    have whole : l.i * 524288 ≤ call.total := by
      unfold total
      omega
    have page : (call.base + l.i * 524288) / 4096 = call.base / 4096 + l.i * 128 := by
      unfold base
      omega
    rw [written, offset, Nat.min_eq_left whole, m_fpga_alignment, page]
    refine Nat.mod_eq_of_lt ?_
    unfold base
    omega

/-- The command that the iteration issues moves its chunk. -/
theorem Looping.isChunk {s : CopySystem} {l : CopyLocals} {done : Nat}
    (inv : call.Looping s .command l done)
    : call.IsChunk
        (s.device.command call.toHost (uint32_t (l.curbyte / m_fpga_alignment))) l.i := by
  have curbyte := inv.curbyte rfl
  constructor
  case toHost => rfl
  case hostAddr =>
    change s.device.hostMemTemp * 4096 = _
    rw [inv.hostArg (.inr rfl)]
    omega
  case fpgaAddr =>
    change s.device.fpgaMemTemp * 4096 = _
    rw [inv.fpgaArg rfl]
    unfold base
    omega
  case bytes =>
    change uint32_t (l.curbyte / m_fpga_alignment) * 4096 = _
    rw [curbyte, uint32_t, m_fpga_alignment]
    unfold chunkBytes total
    omega

/-- The iteration issues its command. -/
theorem Looping.issue {s s' : CopySystem} {l : CopyLocals} {done : Nat}
    (inv : call.Looping s .command l done)
    (cmds : s'.device.cmds = s.device.cmds
      ++ [s.device.command call.toHost (uint32_t (l.curbyte / m_fpga_alignment))])
    (doneCount : s'.device.doneCount = s.device.doneCount)
    (doneTotal : s'.doneTotal = s.doneTotal)
    : call.Looping s' .poll l done := by
  refine ⟨inv.stay rfl rfl, ?_, nofun, nofun, inv.recent,
    inv.queued.push inv.isChunk cmds doneCount doneTotal⟩
  rw [doneCount]
  exact inv.small

/-- The device moves bytes. -/
theorem Looping.move {s s' : CopySystem} {point : CopyPoint} {l : CopyLocals}
    {cmd : PageCommand} {done j k n : Nat} (inv : call.Looping s point l done)
    (moves : s.Moves s' cmd j k n)
    : call.Looping s' point l done := by
  refine ⟨inv.toLocals, ?_, ?_, ?_, inv.recent, inv.queued.move moves⟩
  · rw [moves.doneCount]
    exact inv.small
  · rw [moves.hostMemTemp]
    exact inv.hostArg
  · rw [moves.fpgaMemTemp]
    exact inv.fpgaArg

/-- The device counts a command done. -/
theorem Looping.done {s : CopySystem} {device : CopyDevice} {point : CopyPoint}
    {l : CopyLocals} {done : Nat} (inv : call.Looping s point l done)
    (counts : s.device.done = some device) (noWrap : s.NoWrap .done)
    : call.Looping { s with device } point l (done + 1) := by
  obtain ⟨cmd, _, _, _, _, _, hostMemTemp, fpgaMemTemp, counter, other⟩ :=
    CopyDevice.done_cases counts
  refine ⟨inv.toLocals, ?_, ?_, ?_, Nat.le_succ_of_le inv.recent,
    inv.queued.done counts noWrap⟩
  · intro toHost
    by_cases same : toHost = cmd.toHost
    · rw [same, counter]
      exact Nat.mod_lt _ (by decide)
    · rw [Bool.eq_not_of_ne same, other]
      exact inv.small _
  · rw [hostMemTemp]
    exact inv.hostArg
  · rw [fpgaMemTemp]
    exact inv.fpgaArg

/-- The counter the host reads, compared with what it waits for. -/
theorem Looping.reached {s : CopySystem} {point : CopyPoint} {l : CopyLocals} {done : Nat}
    (inv : call.Looping s point l done) {i : Nat} (small : i ≤ call.chunks)
    : s.device.doneCount call.toHost < size_t (s.doneTotal call.toHost + i) ↔ done < i := by
  have end_ := end_bound inv.inPages
  have counted := inv.queued.counted
  have bounded := inv.small call.toHost
  rw [counted, size_t, Nat.mod_eq_of_lt (by unfold chunks at small; omega)]
  omega

/-- Waiting commands are of the chunks from `done` on; in an iteration that has not issued its
command, none of them uses its half.
-/
theorem Looping.otherHalf {s : CopySystem} {point : CopyPoint} {l : CopyLocals} {done : Nat}
    (inv : call.Looping s point l done) (before : point.issued l.i = l.i)
    : ∀ cmd ∈ s.device.cmds, cmd.half ≠ l.i % 2 := by
  intro cmd member
  obtain ⟨j, position⟩ := List.mem_iff_getElem?.mp member
  have bound := (List.getElem?_eq_some_iff.mp position).1
  have length := inv.queued.length
  have recent := inv.recent
  rw [before] at length
  rw [(inv.queued.chunk position).half]
  omega

/-- All chunks are done. -/
theorem Looping.allDone {s : CopySystem} {point : CopyPoint} {l : CopyLocals} {done : Nat}
    (inv : call.Looping s point l done)
    (last : point = .last) (ready : ¬done < l.cnt)
    : s.device.cmds = [] ∧ call.total ≤ done * 524288 := by
  have cnt := inv.cnt
  have atLast := inv.last last
  have length := inv.queued.length
  subst last
  change s.device.cmds.length = l.i - done at length
  have whole := call.total_le_chunks
  refine ⟨List.length_eq_zero_iff.mp (by omega), ?_⟩
  calc
    call.total ≤ call.chunks * 524288 := whole
    _ ≤ done * 524288 := Nat.mul_le_mul_right _ (by omega)

end CopyCall

/-- The object and the device between two calls. -/
structure CopySystem.Settled (s : CopySystem) : Prop where
  cmds : s.device.cmds = []
  counted : s.device.doneCount = s.doneTotal
  small : ∀ toHost, s.device.doneCount toHost < 2 ^ 32

-----------------------------------------------------------------------------------------
-- Commands executed at once
-----------------------------------------------------------------------------------------

instance CopySystem.decidableNoWrap (s : CopySystem) (e : CopyEvent) : Decidable (s.NoWrap e) := by
  apply CopyEvent.casesOn (motive := fun e => Decidable (s.NoWrap e)) e <;> intros <;>
    unfold CopySystem.NoWrap <;> infer_instance

/-- The device has moved all bytes of its command `cmd` and counted it. -/
def CopySystem.completed (s : CopySystem) (cmd : PageCommand) : CopySystem :=
  if cmd.toHost then
    { s with
      dmaBuffer := memcpy s.dmaBuffer cmd.hostAddr s.device.fpga cmd.fpgaAddr cmd.bytes
      device.cmds := s.device.cmds.tail
      device.dramReadBurstDoneCount := uint32_t (s.device.dramReadBurstDoneCount + 1) }
  else
    { s with
      device.fpga := memcpy s.device.fpga cmd.fpgaAddr s.dmaBuffer cmd.hostAddr cmd.bytes
      device.cmds := s.device.cmds.tail
      device.dramWriteBurstDoneCount := uint32_t (s.device.dramWriteBurstDoneCount + 1) }

/-- A command whose bytes are all marked is finished. -/
theorem PageCommand.finished_mark (cmd : PageCommand) : (cmd.mark 0 cmd.bytes).finished = true := by
  refine List.all_eq_true.mpr ?_
  intro x member
  have within : x < cmd.bytes := List.mem_range.mp member
  simp [mark, within]

/-- The device gets there by moving all bytes and counting the command. -/
theorem CopySystem.move_completed {s : CopySystem} {cmd : PageCommand} {cmds : List PageCommand}
    (items : s.device.cmds = cmd :: cmds)
    : ∃ moved, s.step (.move 0 0 cmd.bytes) = some moved
        ∧ moved.step .done = some (s.completed cmd)
        ∧ (s.NoWrap .done → moved.NoWrap .done) := by
  have same : (cmd.mark 0 cmd.bytes).toHost = cmd.toHost := rfl
  cases direction : cmd.toHost with
  | true =>
      refine ⟨{ s with
          dmaBuffer := memcpy s.dmaBuffer cmd.hostAddr s.device.fpga cmd.fpgaAddr cmd.bytes
          device.cmds := cmd.mark 0 cmd.bytes :: cmds }, ?_, ?_, id⟩
      · simp [step, move, items, direction]
      · simp [step, CopyDevice.done, cmd.finished_mark, same, completed, items, direction]
  | false =>
      refine ⟨{ s with
          device.fpga := memcpy s.device.fpga cmd.fpgaAddr s.dmaBuffer cmd.hostAddr cmd.bytes
          device.cmds := cmd.mark 0 cmd.bytes :: cmds }, ?_, ?_, id⟩
      · simp [step, move, items, direction]
      · simp [step, CopyDevice.done, cmd.finished_mark, same, completed, items, direction]

/-- One event, or (`none`) the device executes its oldest command. -/
def copyMove (s : CopySystem × CopyLog) : Option CopyEvent → Option (CopySystem × CopyLog)
  | some e => copyStep s e
  | none => s.1.device.cmds.head?.map (fun cmd => (s.1.completed cmd, s.2))

/-- An event satisfies `ok`, and no done counter wraps. -/
def MoveOk (ok : CopyEvent → Prop) (s : CopySystem × CopyLog) : Option CopyEvent → Prop
  | some e => ok e ∧ s.1.NoWrap e
  | none => s.1.NoWrap .done

instance MoveOk.decidable {ok : CopyEvent → Prop} [DecidablePred ok] (s : CopySystem × CopyLog)
    (e : Option CopyEvent)
    : Decidable (MoveOk ok s e) :=
  match e with
  | some e => inferInstanceAs (Decidable (ok e ∧ s.1.NoWrap e))
  | none => inferInstanceAs (Decidable (s.1.NoWrap .done))

/-- A run in which commands are executed at once is a run; induction on it. -/
theorem copyMove_reach {ok : CopyEvent → Prop} {start s : CopySystem × CopyLog}
    (moves : ∀ n, ok (.move 0 0 n)) (done : ok .done)
    (run : Reach copyMove (MoveOk ok) start s)
    : Reach copyStep (fun s e => ok e ∧ s.1.NoWrap e) start s := by
  refine run.invariant (P := fun s => Reach copyStep (fun s e => ok e ∧ s.1.NoWrap e) start s)
    .refl ?_
  rintro ⟨s, log⟩ (_ | e) s' earlier allowed fires
  · obtain ⟨cmd, oldest, rfl⟩ := Option.map_eq_some_iff.mp fires
    obtain ⟨cmds, items⟩ := List.head?_eq_some_iff.mp oldest
    obtain ⟨moved, moving, counting, counts⟩ := CopySystem.move_completed items
    have before : Reach copyStep (fun s e => ok e ∧ s.1.NoWrap e) start (moved, log) :=
      earlier.tail ⟨moves cmd.bytes, trivial⟩ (traced_eq_some.mpr ⟨moving, rfl⟩)
    exact before.tail ⟨done, counts allowed⟩ (traced_eq_some.mpr ⟨counting, rfl⟩)
  · exact earlier.tail allowed fires

/-- No call is running. -/
def CopyThread.isIdle : CopyThread → Bool
  | .idle => true
  | _ => false

/-- A thread of no call is idle. -/
theorem CopyThread.eq_idle {thread : CopyThread} (isIdle : thread.isIdle = true)
    : thread = .idle := by
  cases thread with
  | idle => rfl
  | CopyToFPGA | CopyFromFPGA => cases isIdle

end BluespecPcie

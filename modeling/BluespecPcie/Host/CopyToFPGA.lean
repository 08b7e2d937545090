import BluespecPcie.Host.PageCopies

/-! `CopyToFPGA`: chunks are filled in one half while the device works on the other. -/

namespace BluespecPcie

open Bluespec

-----------------------------------------------------------------------------------------
-- Filling a half
-----------------------------------------------------------------------------------------

/-- `CopyToFPGA` at a point: the locals tell what is left of the caller's buffer, and the
chunks up to this point are filled.
-/
structure CopyCall.Writing (call : CopyCall) (s : CopySystem) (point : CopyPoint)
    (l : CopyLocals) (done : Nat) : Prop extends call.Looping s point l done where
  direction : call.toHost = false
  buffer : s.buffer = call.buffer
  hostOffset : l.host_offset = min (l.i * 524288) call.total
  srcBytes : l.i < call.chunks → l.user_bytes = call.bytes - l.i * 524288
  data : call.Written s done (point.filled l.i)

namespace CopyCall

variable {call : CopyCall}

/-- Chunks are filled up to one more, and nothing else of the data changes. -/
theorem Written.fill {s s' : CopySystem} {done c : Nat} (inv : call.Written s done c)
    (recent : c ≤ done + 1) (device : s'.device = s.device)
    (chunk : ∀ k < call.chunkBytes c,
      s'.dmaBuffer (c % 2 * 524288 + k) = call.padded (c * 524288 + k))
    (others : ∀ x, ¬(c % 2 * 524288 ≤ x ∧ x < c % 2 * 524288 + 524288) →
      s'.dmaBuffer x = s.dmaBuffer x)
    : call.Written s' done (c + 1) := by
  constructor
  case filled =>
    intro c' from_ below k short
    rcases Nat.lt_succ_iff_lt_or_eq.mp below with earlier | rfl
    · have small := (call.chunk_within short).2
      rw [others _ (by omega)]
      exact inv.filled c' from_ earlier k short
    · exact chunk k short
  case moved =>
    rw [device]
    exact inv.moved
  case complete =>
    rw [device]
    exact inv.complete
  case frame =>
    rw [device]
    exact inv.frame

/-- Copying `n` bytes of the caller's buffer from `start` on, with the padding behind its end. -/
def copyPadded (call : CopyCall) (dst : ByteMap) (pos start n : Nat) : ByteMap :=
  if call.bytes - start < n then
    memset (memcpy dst pos call.buffer start (call.bytes - start))
      (pos + (call.bytes - start)) 0xff (n - (call.bytes - start))
  else memcpy dst pos call.buffer start n

/-- The copied bytes are those of the padded buffer. -/
theorem copyPadded_inside (dst : ByteMap) (pos : Nat) {start n k : Nat}
    (begins : start < call.bytes) (short : k < n)
    : call.copyPadded dst pos start n (pos + k) = call.padded (start + k) := by
  have index : start + (pos + k - pos) = start + k := by omega
  unfold copyPadded padded
  split
  next rest =>
    by_cases inside : k < call.bytes - start
    · rw [memset, if_neg (by omega), memcpy_inside _ _ _ _ (by omega), index,
        if_pos (by omega)]
    · rw [memset, if_pos (by omega), if_neg (by omega)]
  next whole => rw [memcpy_inside _ _ _ _ (by omega), index, if_pos (by omega)]

/-- The other bytes stay. -/
theorem copyPadded_outside (dst : ByteMap) {pos start n x : Nat}
    (outside : ¬(pos ≤ x ∧ x < pos + n))
    : call.copyPadded dst pos start n x = dst x := by
  unfold copyPadded
  split
  next rest => rw [memset, if_neg (by omega), memcpy_outside _ _ _ _ (by omega)]
  next => exact memcpy_outside _ _ _ _ outside

/-- The iteration fills its half with its chunk, padded. -/
theorem Writing.fill {s s' : CopySystem} {l : CopyLocals} {done : Nat}
    (inv : call.Writing s .loop l done) (more : l.i < l.cnt) (device : s'.device = s.device)
    (dmaBuffer : s'.dmaBuffer = s.fill l.chunk)
    : call.Written s' done (l.i + 1) := by
  have locals := inv.toLocals.choose more
  have below : l.i < call.chunks := locals.more rfl
  have curbyte : l.chunk.curbyte = call.chunkBytes l.i := locals.curbyte rfl
  have bufoff : l.chunk.bufoff = l.i % 2 * 524288 := locals.bufoff rfl
  have srcBytes : l.chunk.user_bytes = call.bytes - l.i * 524288 := inv.srcBytes below
  have hostOffset : l.chunk.host_offset = l.i * 524288 := by
    have begins := call.chunk_begins below
    refine inv.hostOffset.trans (Nat.min_eq_left ?_)
    unfold total
    omega
  have filled : s'.dmaBuffer
      = call.copyPadded s.dmaBuffer (l.i % 2 * 524288) (l.i * 524288) (call.chunkBytes l.i) := by
    rw [dmaBuffer, CopySystem.fill, curbyte, bufoff, srcBytes, hostOffset, inv.buffer]
    rfl
  have half : call.chunkBytes l.i ≤ 524288 := Nat.min_le_left ..
  have data : call.Written s done l.i := inv.data
  refine data.fill inv.recent device ?_ ?_
  · intro k short
    rw [filled]
    exact copyPadded_inside _ _ (call.chunk_begins below) short
  · intro x outside
    rw [filled]
    refine copyPadded_outside _ ?_
    intro inside
    exact outside ⟨inside.1, Nat.lt_of_lt_of_le inside.2 (Nat.add_le_add_left half _)⟩

/-- A new command has moved nothing. -/
theorem Written.push {s s' : CopySystem} {cmd : PageCommand} {done filled : Nat}
    (inv : call.Written s done filled) (cmds : s'.device.cmds = s.device.cmds ++ [cmd])
    (unmoved : cmd.moved = fun _ => false) (fpga : s'.device.fpga = s.device.fpga)
    (dmaBuffer : s'.dmaBuffer = s.dmaBuffer)
    : call.Written s' done filled := by
  obtain ⟨filled, moved, complete, frame⟩ := inv
  rw [← dmaBuffer] at filled
  rw [← fpga] at complete frame
  refine ⟨filled, ?_, complete, frame⟩
  intro j later position k short isMoved
  rw [cmds] at position
  rw [fpga]
  exact moved (moved_push unmoved position isMoved) k short isMoved

/-- Registers do not matter for the data. -/
theorem Written.congr {s s' : CopySystem} {done filled : Nat}
    (inv : call.Written s done filled) (cmds : s'.device.cmds = s.device.cmds)
    (fpga : s'.device.fpga = s.device.fpga) (dmaBuffer : s'.dmaBuffer = s.dmaBuffer)
    : call.Written s' done filled := by
  obtain ⟨filled, moved, complete, frame⟩ := inv
  rw [← dmaBuffer] at filled
  rw [← fpga] at moved complete frame
  rw [← cmds] at moved
  exact ⟨filled, moved, complete, frame⟩

/-- A thread goes on at a point of `CopyToFPGA`, or has returned. -/
def Writing.Goes (call : CopyCall) (s : CopySystem) (done : Nat) : Prop :=
  (∃ point l, s.thread = .CopyToFPGA point l ∧ call.Writing s point l done)
    ∨ s.thread = .idle ∧ s.Settled ∧ call.Leaves s

section Writing

variable {s : CopySystem} {l : CopyLocals} {done : Nat}

/-- The test of the loop. -/
theorem Writing.stepLoop (inv : call.Writing s .loop l done)
    : Writing.Goes call (s.CopyToFPGA .loop l) done := by
  unfold CopySystem.CopyToFPGA
  left
  by_cases more : l.i < l.cnt
  · rw [if_pos more]
    refine ⟨.hostArg, l.chunk, rfl, ⟨?_, inv.direction, inv.buffer, inv.hostOffset,
      inv.srcBytes, inv.fill more rfl rfl⟩⟩
    exact inv.sameDevice (inv.choose more) (.inr (.inl rfl)) rfl inv.recent rfl rfl
  · rw [if_neg more]
    refine ⟨.last, l, rfl, ⟨?_, inv.direction, inv.buffer, inv.hostOffset, inv.srcBytes,
      inv.data.congr rfl rfl rfl⟩⟩
    exact inv.sameDevice (inv.leave more) (.inr (.inr rfl)) rfl inv.recent rfl rfl

/-- The first argument. -/
theorem Writing.stepHostArg (inv : call.Writing s .hostArg l done)
    : Writing.Goes call (s.CopyToFPGA .hostArg l) done := by
  unfold CopySystem.CopyToFPGA
  rw [userWriteWord_host]
  exact .inl ⟨.fpgaArg, l, rfl, ⟨inv.writeHost rfl rfl rfl rfl, inv.direction, inv.buffer,
    inv.hostOffset, inv.srcBytes, inv.data.congr rfl rfl rfl⟩⟩

/-- The second argument. -/
theorem Writing.stepFPGAArg (inv : call.Writing s .fpgaArg l done)
    : Writing.Goes call (s.CopyToFPGA .fpgaArg l) done := by
  unfold CopySystem.CopyToFPGA
  rw [userWriteWord_fpga]
  exact .inl ⟨.command, l, rfl, ⟨inv.writeFPGA rfl rfl rfl rfl rfl, inv.direction, inv.buffer,
    inv.hostOffset, inv.srcBytes, inv.data.congr rfl rfl rfl⟩⟩

/-- The command. -/
theorem Writing.stepCommand (inv : call.Writing s .command l done)
    : Writing.Goes call (s.CopyToFPGA .command l) done := by
  have issue := @Looping.issue call s
    { s.userWriteWord m_to_fpga_cmd (l.curbyte / m_fpga_alignment) with
      thread := .CopyToFPGA .poll l } l done inv.toLooping
  rw [inv.direction] at issue
  exact .inl ⟨.poll, l, rfl, ⟨issue rfl rfl rfl, inv.direction, inv.buffer, inv.hostOffset,
    inv.srcBytes, inv.data.push rfl rfl rfl rfl⟩⟩

/-- The comparison of the write counter with what the host waits for. -/
theorem Writing.reached {point : CopyPoint} (inv : call.Writing s point l done) {i : Nat}
    (within : i ≤ call.chunks)
    : s.userReadWord m_fpga_write_stat_off < size_t (s.m_write_done_total + i) ↔ done < i := by
  have reached := inv.toLooping.reached within
  rw [inv.direction] at reached
  exact reached

/-- The wait of an iteration. -/
theorem Writing.stepPoll (inv : call.Writing s .poll l done)
    (thread : s.thread = .CopyToFPGA .poll l)
    : Writing.Goes call (s.CopyToFPGA .poll l) done := by
  have reached := inv.reached inv.within
  have more := inv.more rfl
  have curbyte := inv.curbyte rfl
  have hostOffset := inv.hostOffset
  have srcBytes := inv.srcBytes more
  unfold CopySystem.CopyToFPGA
  left
  simp only [reached]
  split
  next => exact ⟨.poll, l, thread, inv⟩
  next ready =>
    refine ⟨.loop, l.nextWrite, rfl, ⟨?_, inv.direction, inv.buffer, ?_, ?_,
      inv.data.congr rfl rfl rfl⟩⟩
    · exact inv.sameDevice (inv.next rfl rfl rfl rfl) (.inl rfl) rfl
        (Nat.succ_le_succ (Nat.le_of_not_lt ready)) rfl rfl
    · change size_t (l.host_offset + l.curbyte) = min ((l.i + 1) * 524288) call.total
      have small := Nat.lt_of_le_of_lt (Nat.min_le_right ((l.i + 1) * 524288) _)
        (total_small inv.inPages)
      rw [hostOffset, curbyte, chunk_end]
      exact size_t_of_lt small
    · intro further
      change l.i + 1 < call.chunks at further
      change size_t (l.user_bytes + 2 ^ 64 - l.curbyte) = call.bytes - (l.i + 1) * 524288
      have begins := call.chunk_begins further
      rw [srcBytes, curbyte, call.chunkBytes_full further,
        size_t_sub (call.chunk_leaves begins) (call.left_small inv.inPages _), Nat.succ_mul,
        Nat.sub_sub]

/-- The wait behind the loop, and the return. -/
theorem Writing.stepLast (inv : call.Writing s .last l done)
    (thread : s.thread = .CopyToFPGA .last l)
    : Writing.Goes call (s.CopyToFPGA .last l) done := by
  have reached := inv.reached (Nat.le_of_eq inv.cnt)
  unfold CopySystem.CopyToFPGA
  simp only [reached]
  split
  next => exact .inl ⟨.last, l, thread, inv⟩
  next ready =>
    right
    obtain ⟨idle, whole⟩ := inv.allDone rfl ready
    refine ⟨rfl, ⟨idle, ?_, inv.small⟩, ?_⟩
    · funext toHost
      have other := inv.queued.other
      rw [inv.direction] at other
      cases toHost with
      | true => exact other
      | false => rfl
    · rw [Leaves, if_neg (by rw [inv.direction]; exact Bool.false_ne_true)]
      intro a
      by_cases inside : call.base ≤ a ∧ a < call.base + call.total
      · rw [if_pos inside]
        have value := inv.data.complete (a - call.base) (by omega) (by omega)
        rwa [show call.base + (a - call.base) = a by omega] at value
      · rw [if_neg inside]
        exact inv.data.frame a inside

/-- Every step of `CopyToFPGA`. -/
theorem Writing.host {point : CopyPoint} (inv : call.Writing s point l done)
    (thread : s.thread = .CopyToFPGA point l)
    : Writing.Goes call (s.CopyToFPGA point l) done := by
  cases point with
  | loop => exact inv.stepLoop
  | hostArg => exact inv.stepHostArg
  | fpgaArg => exact inv.stepFPGAArg
  | command => exact inv.stepCommand
  | poll => exact inv.stepPoll thread
  | last => exact inv.stepLast thread

/-- The commands that wait have their chunks filled. -/
theorem issued_le_filled (point : CopyPoint) (i : Nat)
    : point.issued i ≤ point.filled i := by
  cases point <;> simp [CopyPoint.issued, CopyPoint.filled]

/-- The device moves bytes. -/
theorem Writing.move {s' : CopySystem} {point : CopyPoint} {cmd : PageCommand} {j k n : Nat}
    (inv : call.Writing s point l done) (moves : s.Moves s' cmd j k n)
    : call.Writing s' point l done :=
  ⟨inv.toLooping.move moves, inv.direction, moves.buffer.trans inv.buffer, inv.hostOffset,
    inv.srcBytes,
    inv.data.move inv.queued inv.direction (issued_le_filled point l.i) moves⟩

/-- The device counts a command done. -/
theorem Writing.counts {device : CopyDevice} {point : CopyPoint}
    (inv : call.Writing s point l done) (counts : s.device.done = some device)
    (noWrap : s.NoWrap .done)
    : call.Writing { s with device } point l (done + 1) :=
  ⟨inv.toLooping.done counts noWrap, inv.direction, inv.buffer, inv.hostOffset, inv.srcBytes,
    inv.data.done inv.queued counts⟩

end Writing

end CopyCall

end BluespecPcie

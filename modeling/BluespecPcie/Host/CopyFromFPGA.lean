import BluespecPcie.Host.CopyToFPGA

/-! `CopyFromFPGA`: a half is copied out while the device works on the other. -/

namespace BluespecPcie

open Bluespec

-----------------------------------------------------------------------------------------
-- Copying out
-----------------------------------------------------------------------------------------

/-- `CopyFromFPGA` at a point: the locals tell what is copied out, one chunk behind the
iteration.
-/
structure CopyCall.Fetching (call : CopyCall) (s : CopySystem) (point : CopyPoint)
    (l : CopyLocals) (done : Nat) : Prop extends call.Looping s point l done where
  direction : call.toHost = true
  hostOffset : l.host_offset = (l.i - 1) * 524288
  dstBytes : l.user_bytes = call.bytes - (l.i - 1) * 524288
  lastbyte : 0 < l.i → l.lastbyte = call.chunkBytes (l.i - 1)
  data : call.Fetched s (l.i - 1) done

/-- The halves of the issued chunks that are not copied out. -/
def halvesFrom (copied issued : Nat) : List Nat :=
  (List.range' copied (issued - copied)).map (· % 2)

/-- A further chunk. -/
theorem halvesFrom_snoc {copied issued : Nat} (le : copied ≤ issued)
    : halvesFrom copied (issued + 1) = halvesFrom copied issued ++ [issued % 2] := by
  unfold halvesFrom
  rw [show issued + 1 - copied = issued - copied + 1 by omega, List.range'_1_concat,
    List.map_append, show copied + (issued - copied) = issued by omega]
  rfl

/-- The oldest chunk. -/
theorem halvesFrom_erase {copied issued : Nat} (lt : copied < issued)
    : (halvesFrom copied issued).erase (copied % 2) = halvesFrom (copied + 1) issued := by
  unfold halvesFrom
  rw [show issued - copied = issued - (copied + 1) + 1 by omega, List.range'_succ,
    List.map_cons, List.erase_cons_head]

/-- Without chunks there are no halves. -/
theorem halvesFrom_self (copied : Nat) : halvesFrom copied copied = [] := by
  rw [halvesFrom, Nat.sub_self]
  rfl

namespace CopyCall

variable {call : CopyCall} {s s' : CopySystem} {l : CopyLocals} {copied done : Nat}

/-- A new command has moved nothing. -/
theorem Fetched.push {cmd : PageCommand} (inv : call.Fetched s copied done)
    (cmds : s'.device.cmds = s.device.cmds ++ [cmd]) (unmoved : cmd.moved = fun _ => false)
    (fpga : s'.device.fpga = s.device.fpga) (dmaBuffer : s'.dmaBuffer = s.dmaBuffer)
    (buffer : s'.buffer = s.buffer)
    : call.Fetched s' copied done := by
  obtain ⟨moved, arrived, returned, same⟩ := inv
  rw [← dmaBuffer] at moved arrived
  rw [← buffer] at returned
  refine ⟨?_, arrived, returned, fpga.trans same⟩
  intro j later position k short isMoved
  rw [cmds] at position
  exact moved (moved_push unmoved position isMoved) k short isMoved

/-- Registers do not matter for the data. -/
theorem Fetched.congr (inv : call.Fetched s copied done)
    (cmds : s'.device.cmds = s.device.cmds) (fpga : s'.device.fpga = s.device.fpga)
    (dmaBuffer : s'.dmaBuffer = s.dmaBuffer) (buffer : s'.buffer = s.buffer)
    : call.Fetched s' copied done := by
  obtain ⟨moved, arrived, returned, same⟩ := inv
  rw [← dmaBuffer] at moved arrived
  rw [← cmds] at moved
  rw [← buffer] at returned
  exact ⟨moved, arrived, returned, fpga.trans same⟩

/-- The place of the half of the chunk before chunk `c + 1`. -/
theorem otherHalf_eq (c : Nat)
    : (if (c + 1) % 2 = 0 then m_max_dma_bytes / 2 else 0) = c % 2 * 524288 := by
  rw [show m_max_dma_bytes / 2 = 524288 from rfl]
  split <;> omega

/-- Copying a whole chunk out of its half. -/
theorem Fetched.copyOut (inv : call.Fetched s copied done) (ready : copied < done)
    (full : call.chunkBytes copied = 524288) (cmds : s'.device.cmds = s.device.cmds)
    (fpga : s'.device.fpga = s.device.fpga) (dmaBuffer : s'.dmaBuffer = s.dmaBuffer)
    (buffer : s'.buffer
      = memcpy s.buffer (copied * 524288) s.dmaBuffer (copied % 2 * 524288) 524288)
    : call.Fetched s' (copied + 1) done := by
  obtain ⟨moved, arrived, returned, same⟩ := inv
  have chunk := arrived copied (Nat.le_refl _) ready
  rw [full] at chunk
  rw [← dmaBuffer] at moved arrived
  rw [← cmds] at moved
  refine ⟨moved, fun c from_ => arrived c (by omega), ?_, fpga.trans same⟩
  intro j below
  rw [buffer]
  by_cases earlier : j < copied * 524288
  · rw [memcpy_outside _ _ _ _ (by omega)]
    exact returned j earlier
  · have value := chunk (j - copied * 524288) (by omega)
    rw [memcpy_inside _ _ _ _ (by omega), value,
      show copied * 524288 + (j - copied * 524288) = j by omega]

-----------------------------------------------------------------------------------------
-- Steps of the thread
-----------------------------------------------------------------------------------------

/-- A thread goes on at a point of `CopyFromFPGA`, or has returned; `uncopied` are the halves
that it has not copied out.
-/
def Fetching.Goes (call : CopyCall) (s : CopySystem) (done : Nat) (uncopied : List Nat)
    : Prop :=
  (∃ point l, s.thread = .CopyFromFPGA point l ∧ call.Fetching s point l done
      ∧ uncopied = halvesFrom (l.i - 1) (point.issued l.i))
    ∨ s.thread = .idle ∧ s.Settled ∧ call.Leaves s ∧ uncopied = []

/-- The test of the loop. -/
theorem Fetching.stepLoop (inv : call.Fetching s .loop l done)
    : Fetching.Goes call (s.CopyFromFPGA .loop l) done (halvesFrom (l.i - 1) l.i) := by
  unfold CopySystem.CopyFromFPGA
  left
  by_cases more : l.i < l.cnt
  · rw [if_pos more]
    refine ⟨.hostArg, l.chunk, rfl, ⟨?_, inv.direction, inv.hostOffset, inv.dstBytes,
      inv.lastbyte, inv.data.congr rfl rfl rfl rfl⟩, rfl⟩
    exact inv.sameDevice (inv.choose more) (.inr (.inl rfl)) rfl inv.recent rfl rfl
  · rw [if_neg more]
    refine ⟨.last, l, rfl, ⟨?_, inv.direction, inv.hostOffset, inv.dstBytes, inv.lastbyte,
      inv.data.congr rfl rfl rfl rfl⟩, rfl⟩
    exact inv.sameDevice (inv.leave more) (.inr (.inr rfl)) rfl inv.recent rfl rfl

/-- The first argument. -/
theorem Fetching.stepHostArg (inv : call.Fetching s .hostArg l done)
    : Fetching.Goes call (s.CopyFromFPGA .hostArg l) done (halvesFrom (l.i - 1) l.i) := by
  unfold CopySystem.CopyFromFPGA
  rw [userWriteWord_host]
  exact .inl ⟨.fpgaArg, l, rfl, ⟨inv.writeHost rfl rfl rfl rfl, inv.direction,
    inv.hostOffset, inv.dstBytes, inv.lastbyte, inv.data.congr rfl rfl rfl rfl⟩, rfl⟩

/-- The second argument. -/
theorem Fetching.stepFPGAArg (inv : call.Fetching s .fpgaArg l done)
    : Fetching.Goes call (s.CopyFromFPGA .fpgaArg l) done (halvesFrom (l.i - 1) l.i) := by
  unfold CopySystem.CopyFromFPGA
  rw [userWriteWord_fpga]
  exact .inl ⟨.command, l, rfl, ⟨inv.writeFPGA rfl rfl rfl rfl rfl, inv.direction,
    inv.hostOffset, inv.dstBytes, inv.lastbyte, inv.data.congr rfl rfl rfl rfl⟩, rfl⟩

/-- The command; its half is not copied out. -/
theorem Fetching.stepCommand (inv : call.Fetching s .command l done)
    : Fetching.Goes call (s.CopyFromFPGA .command l) done
        (halvesFrom (l.i - 1) l.i ++ [l.i % 2]) := by
  have issue := @Looping.issue call s
    { s.userWriteWord m_to_host_cmd (l.curbyte / m_fpga_alignment) with
      thread := .CopyFromFPGA .poll l } l done inv.toLooping
  rw [inv.direction] at issue
  exact .inl ⟨.poll, l, rfl, ⟨issue rfl rfl rfl, inv.direction, inv.hostOffset, inv.dstBytes,
    inv.lastbyte, inv.data.push rfl rfl rfl rfl rfl⟩, (halvesFrom_snoc (Nat.sub_le _ _)).symm⟩

/-- The wait of the first iteration; nothing is copied out. -/
theorem Fetching.stepFirstPoll (inv : call.Fetching s .poll l done) (first : l.i = 0)
    (ready : ¬s.userReadWord m_fpga_read_stat_off < size_t (s.m_read_done_total + l.i))
    : Fetching.Goes call (s.CopyFromFPGA .poll l) done (halvesFrom (l.i - 1) (l.i + 1)) := by
  have none : ¬l.i > 0 := by omega
  unfold CopySystem.CopyFromFPGA
  simp only [ready, if_false, none]
  refine .inl ⟨.loop, l.nextRead, rfl, ⟨?_, inv.direction, ?_, ?_, ?_, ?_⟩, ?_⟩
  · refine inv.sameDevice (inv.next rfl rfl rfl rfl) (.inl rfl) rfl ?_ rfl rfl
    exact Nat.succ_le_succ (by omega)
  · change (if l.i > 0 then _ else l.host_offset) = (l.i + 1 - 1) * 524288
    rw [if_neg none, inv.hostOffset, first]
  · change (if l.i > 0 then _ else l.user_bytes) = call.bytes - (l.i + 1 - 1) * 524288
    rw [if_neg none, inv.dstBytes, first]
  · exact fun _ => inv.curbyte rfl
  · have data : call.Fetched { s with thread := .CopyFromFPGA .loop l.nextRead } (l.i - 1) done :=
      inv.data.congr rfl rfl rfl rfl
    rw [first] at data
    simpa only [CopyLocals.nextRead, first] using data
  · simp only [CopyLocals.nextRead, CopyPoint.issued, first]

/-- The wait of a later iteration; the chunk of the one before is copied out. -/
theorem Fetching.stepLaterPoll {c : Nat} (inv : call.Fetching s .poll l done)
    (later : l.i = c + 1)
    (ready : ¬s.userReadWord m_fpga_read_stat_off < size_t (s.m_read_done_total + l.i))
    (reached : c + 1 ≤ done)
    : Fetching.Goes call (s.CopyFromFPGA .poll l) done (halvesFrom (c + 1) (c + 2)) := by
  have some : l.i > 0 := by omega
  have more : c + 1 < call.chunks := by
    have more := inv.more rfl
    omega
  have full := call.chunkBytes_full more
  have lastbyte := inv.lastbyte some
  have hostOffset := inv.hostOffset
  have dstBytes := inv.dstBytes
  have data := inv.data
  rw [later, Nat.add_sub_cancel] at lastbyte hostOffset dstBytes data
  rw [full] at lastbyte
  unfold CopySystem.CopyFromFPGA
  simp only [ready, if_false]
  refine .inl ⟨.loop, l.nextRead, rfl, ⟨?_, inv.direction, ?_, ?_, ?_, ?_⟩, ?_⟩
  · refine inv.sameDevice (inv.next rfl rfl rfl rfl) (.inl rfl) rfl ?_ rfl rfl
    change l.i + 1 ≤ done + 1
    omega
  · change (if l.i > 0 then size_t (l.host_offset + l.lastbyte) else _)
      = (l.i + 1 - 1) * 524288
    have small : (c + 1) * 524288 < 2 ^ 64 :=
      Nat.lt_trans (call.chunk_begins more) (left_small call inv.inPages 0)
    rw [if_pos some, hostOffset, lastbyte, later, ← Nat.succ_mul, size_t_of_lt small,
      Nat.add_sub_cancel]
  · change (if l.i > 0 then size_t (l.user_bytes + 2 ^ 64 - l.lastbyte) else _)
      = call.bytes - (l.i + 1 - 1) * 524288
    rw [if_pos some, dstBytes, lastbyte,
      size_t_sub (call.chunk_leaves (call.chunk_begins more)) (left_small call inv.inPages _),
      later, Nat.add_sub_cancel, Nat.succ_mul, Nat.sub_sub]
  · exact fun _ => inv.curbyte rfl
  · change call.Fetched _ (l.i + 1 - 1) done
    rw [later, Nat.add_sub_cancel]
    refine data.copyOut reached full rfl rfl rfl ?_
    rw [hostOffset, lastbyte, otherHalf_eq]
    rfl
  · change _ = halvesFrom (l.i + 1 - 1) (l.i + 1)
    rw [later]
    rfl

/-- All chunks are done; the last one is copied out. -/
theorem Fetching.stepLast (inv : call.Fetching s .last l done)
    (ready : ¬s.userReadWord m_fpga_read_stat_off < size_t (s.m_read_done_total + l.cnt))
    (reached : ¬done < l.cnt)
    : Fetching.Goes call (s.CopyFromFPGA .last l) done [] := by
  obtain ⟨idle, whole⟩ := inv.allDone rfl reached
  unfold CopySystem.CopyFromFPGA
  simp only [ready, if_false]
  refine .inr ⟨rfl, ⟨idle, ?_, inv.small⟩, ?_, rfl⟩
  · funext toHost
    have other := inv.queued.other
    rw [inv.direction] at other
    cases toHost with
    | true => rfl
    | false => exact other
  · rw [Leaves, if_pos inv.direction]
    refine ⟨?_, inv.data.fpga⟩
    intro j below
    have inside : j < call.total := by
      unfold total
      omega
    obtain ⟨chunk, short⟩ := call.mem_chunk inside
    obtain ⟨c, last⟩ := Nat.exists_eq_succ_of_ne_zero
      (show call.chunks ≠ 0 by omega)
    have atLast := inv.last rfl
    have hostOffset := inv.hostOffset
    have dstBytes := inv.dstBytes
    have data := inv.data
    have cnt := inv.cnt
    rw [atLast, last, Nat.succ_sub_one] at hostOffset dstBytes data
    have chunks := call.total_le_chunks
    change s.drainLast l j = call.fpga (call.base + j)
    -- a byte of an earlier chunk is in the buffer; one of the last chunk is copied now
    by_cases earlier : j < c * 524288
    · rw [← data.returned j earlier]
      simp only [CopySystem.drainLast, hostOffset, dstBytes]
      split
      next => exact memcpy_outside _ _ _ _ (by omega)
      next => rw [memset, if_neg (by omega), memcpy_outside _ _ _ _ (by omega)]
    · have position : j / 524288 = c := by omega
      rw [position] at short
      have value := data.arrived c (Nat.le_refl _) (by omega) (j % 524288) short
      rw [show c * 524288 + j % 524288 = j by omega] at value
      rw [← value]
      simp only [CopySystem.drainLast, hostOffset, dstBytes, cnt, last, otherHalf_eq]
      have index : c % 2 * 524288 + (j - c * 524288) = c % 2 * 524288 + j % 524288 := by omega
      split
      next =>
        have half : m_max_dma_bytes / 2 = 524288 := rfl
        rw [half, memcpy_inside _ _ _ _ (by omega), index]
      next => rw [memset, if_neg (by omega), memcpy_inside _ _ _ _ (by omega), index]

/-- The comparison of the read counter with what the host waits for. -/
theorem Fetching.reached {point : CopyPoint} {i : Nat}
    (inv : call.Fetching s point l done) (within : i ≤ call.chunks)
    : s.userReadWord m_fpga_read_stat_off < size_t (s.m_read_done_total + i) ↔ done < i := by
  have reached := inv.toLooping.reached within
  rw [inv.direction] at reached
  exact reached

/-- The device moves bytes. -/
theorem Fetching.move {point : CopyPoint} {cmd : PageCommand} {j k n : Nat}
    (inv : call.Fetching s point l done) (moves : s.Moves s' cmd j k n)
    : call.Fetching s' point l done := by
  have recent := inv.recent
  have issued : point.issued l.i ≤ l.i - 1 + 2 := by
    cases point <;> simp only [CopyPoint.issued] <;> omega
  exact ⟨inv.toLooping.move moves, inv.direction, inv.hostOffset, inv.dstBytes, inv.lastbyte,
    inv.data.move inv.queued inv.direction (by omega) issued moves⟩

/-- The device counts a command done. -/
theorem Fetching.counts {device : CopyDevice} {point : CopyPoint}
    (inv : call.Fetching s point l done) (counts : s.device.done = some device)
    (noWrap : s.NoWrap .done)
    : call.Fetching { s with device } point l (done + 1) :=
  ⟨inv.toLooping.done counts noWrap, inv.direction, inv.hostOffset, inv.dstBytes,
    inv.lastbyte, inv.data.done inv.queued counts⟩

end CopyCall

end BluespecPcie

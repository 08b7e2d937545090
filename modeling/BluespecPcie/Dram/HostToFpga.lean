import BluespecPcie.Dma.ReadTags
import BluespecPcie.Dram.PageCommands

/-! `mkDRAMHostDMA`: pages from host to FPGA. The words of the read tags come in the order of the
commands, and the burst writer gets them four at a time.
-/

namespace BluespecPcie

open Bluespec
open TaggedReads (bufferWords bufferWords_zero bufferWords_chunk)

namespace DRAMHostDMA

variable {mem : BitVec 32 → DMAWord} {P : TaggedReads mem} {R : BurstReader}

-----------------------------------------------------------------------------------------
-- Words from the host
-----------------------------------------------------------------------------------------

/-- The words in order again, those that are due under tags, and those of the buffer for which no
request is made yet are the words `ahead`.
-/
structure HostReads (mem : BitVec 32 → DMAWord) (P : TaggedReads mem) (reads : ReadReorder 16 8)
    (buffer : BitVec 32 × BitVec 32) (p : P.State) (ahead : List DMAWord)
    (due : List (BitVec 8 × DMAWord)) : Prop where
  range : reads.InRange
  lined : reads.Lined mem (P.owes p) due
  whole : buffer.2.toNat % 16 = 0
  words : reads.dmaReadWordsQ2.items ++ due.map Prod.snd ++ bufferWords mem buffer = ahead

section HostReads

variable {reads reads' : ReadReorder 16 8} {buffer : BitVec 32 × BitVec 32} {p p' : P.State}
variable {ahead : List DMAWord} {due due' : List (BitVec 8 × DMAWord)}

theorem HostReads.init (P : TaggedReads mem)
    : HostReads mem P mkDRAMHostDMA.reads (mkDRAMHostDMA.hostMemOff, mkDRAMHostDMA.memReadLeft)
        P.init [] [] := by
  refine ⟨.init, .init (by decide) P.owes_init, rfl, ?_⟩
  change [] ++ [] ++ bufferWords mem (0, 0) = []
  rw [bufferWords_zero]
  rfl

/-- The registers of the read tags move on, and the output with what is due does not change. -/
theorem HostReads.onReads (host : HostReads mem P reads buffer p ahead due)
    (range : reads'.InRange) (lined : reads'.Lined mem (P.owes p') due')
    (same
      : reads'.dmaReadWordsQ2.items ++ due'.map Prod.snd
        = reads.dmaReadWordsQ2.items ++ due.map Prod.snd)
    : HostReads mem P reads' buffer p' ahead due' := by
  refine ⟨range, lined, host.whole, ?_⟩
  rw [same]
  exact host.words

/-- A chunk has words, and what is left behind it is behind its words. -/
theorem chunkWords_whole {m : DRAMHostDMA} (more : 0 < m.memReadLeft)
    (whole : m.memReadLeft.toNat % 16 = 0)
    : m.chunkWords ≠ 0
      ∧ bufferWords mem (m.hostMemOff, m.memReadLeft)
        = (TaggedDma.wordAddrs m.hostMemOff m.chunkWords.toNat).map mem
          ++ bufferWords mem
            (if 128 ≤ m.memReadLeft then m.hostMemOff + 128 else m.hostMemOff,
              if 128 ≤ m.memReadLeft then m.memReadLeft - 128 else 0) := by
  refine bufferWords_chunk more whole ?_
  unfold chunkWords
  split
  next => rfl
  next few =>
    have bound : m.memReadLeft.toNat < 128 := by
      rw [BitVec.le_def] at few
      exact Nat.not_le.mp few
    have sum : (m.memReadLeft + 15).toNat = m.memReadLeft.toNat + 15 := by bv_omega
    rw [BitVec.toNat_setWidth, BitVec.toNat_ushiftRight, sum, Nat.shiftRight_eq_div_pow]
    omega

/-- A chunk is sent: its words are due, and no longer of the buffer. -/
theorem HostReads.sendDMARead {m m' : DRAMHostDMA} {tag : BitVec 8}
    (host : HostReads mem P m.reads (m.hostMemOff, m.memReadLeft) p ahead due)
    (sent : m.sendDMARead = some (tag, m'))
    (requested : P.dmaReadReq p m.hostMemOff (m.chunkWords.setWidth 10) tag = some p')
    : ∃ due', HostReads mem P m'.reads (m'.hostMemOff, m'.memReadLeft) p' ahead due' := by
  obtain ⟨more, -, reads, chunk, rfl⟩ := sendDMARead_spec sent
  obtain ⟨nonzero, split⟩ := @chunkWords_whole mem m more host.whole
  have owed := P.of_dmaReadReq requested
  rw [BitVec.toNat_setWidth, Nat.mod_eq_of_lt (Nat.lt_trans m.chunkWords.isLt (by decide))]
    at owed
  have lined := host.lined.sendChunk nonzero m.hostMemOff chunk
  rw [← owed] at lined
  obtain ⟨_, _, -, -, rfl⟩ := ReadReorder.sendChunk_spec chunk
  refine ⟨_, host.range.sendChunk chunk, lined, ?_, ?_⟩
  · have whole := host.whole
    change (if 128 ≤ m.memReadLeft then m.memReadLeft - 128 else 0).toNat % 16 = 0
    split
    next full =>
      have bound : 128 ≤ m.memReadLeft.toNat := BitVec.le_def.mp full
      have rest : (m.memReadLeft - 128).toNat = m.memReadLeft.toNat - 128 :=
        BitVec.toNat_sub_of_le full
      change m.memReadLeft.toNat % 16 = 0 at whole
      omega
    next => rfl
  · rw [← host.words]
    simp only [split, List.map_append, List.append_assoc, List.map_map, Function.comp_def]

/-- A word is returned by the interface. -/
theorem HostReads.getDMARead {tag : BitVec 8} {word : DMAWord}
    (host : HostReads mem P reads buffer p ahead due)
    (returned : P.dmaReadWord p = some ((tag, word), p'))
    (taken : reads.getDMARead tag word = some reads')
    : HostReads mem P reads' buffer p' ahead due := by
  obtain ⟨addr, rest, owed, rfl, owes⟩ := P.of_dmaReadWord returned
  have lined := host.lined.getDMARead owed taken
  rw [← owes] at lined
  refine host.onReads (host.range.getDMARead taken) lined ?_
  rcases ReadReorder.getDMARead_cases taken with ⟨-, rfl⟩ | ⟨_, _, -, -, -, rfl⟩
  · rfl
  · rfl

/-- A word is taken out of the queue of its tag. -/
theorem HostReads.drained {tag : BitVec 8} {word : DMAWord}
    (host : HostReads mem P reads buffer p ahead due)
    (taken : ReadReorder.Drained reads reads' tag word)
    : ∃ due', HostReads mem P reads' buffer p ahead due' := by
  obtain ⟨rest, rfl, lined⟩ := host.lined.drained taken
  refine ⟨rest, host.onReads (host.range.drained taken) lined ?_⟩
  rw [taken.output, List.map_cons, List.append_assoc, List.singleton_append]

/-- The oldest word is taken: it is the first of those ahead. -/
theorem HostReads.takeWord {word : DMAWord} (host : HostReads mem P reads buffer p ahead due)
    (taken : reads.takeWord = some (word, reads'))
    : ∃ later, ahead = word :: later ∧ HostReads mem P reads' buffer p later due := by
  have range := host.range.takeWord taken
  have lined := host.lined.takeWord taken
  obtain ⟨⟨_, dmaReadWordsQ2⟩, first, ⟨⟩⟩ := Option.bind_eq_some_iff.mp taken
  have words := host.words
  rw [Fifo.deq_eq_some.mp first] at words
  exact ⟨_, words.symm, range, lined, host.whole, rfl⟩

/-- Nothing is left of the buffer: the next one is taken up. -/
theorem HostReads.command {off : BitVec 32} {c : DmaCmd} (sized : c.Sized)
    (host : HostReads mem P reads (off, 0) p ahead due)
    : HostReads mem P reads (c.2.1 <<< 12, c.2.2.2 <<< 12) p (ahead ++ c.hostWords mem) due := by
  refine ⟨host.range, host.lined, ?_, ?_⟩
  · change (c.2.2.2 <<< 12).toNat % 16 = 0
    rw [sized.bytes]
    omega
  · rw [sized.bufferWords, ← host.words, bufferWords_zero, List.append_nil]

/-- Where nothing is left of the buffer, it does not matter where it was. -/
theorem HostReads.moved {off : BitVec 32} (off' : BitVec 32)
    (host : HostReads mem P reads (off, 0) p ahead due)
    : HostReads mem P reads (off', 0) p ahead due := by
  refine ⟨host.range, host.lined, rfl, ?_⟩
  rw [bufferWords_zero, ← host.words, bufferWords_zero]

end HostReads

-----------------------------------------------------------------------------------------
-- Bursts to the burst writer
-----------------------------------------------------------------------------------------

/-- Where the commands from host to FPGA are: those that the burst writer has all words of, the one
whose burst is under way, and those whose bursts wait; with the words of `dramWriteBuffer` and those
that the burst under way still lacks.
-/
structure FpgaWork where
  ended : List DmaCmd
  cur : List DmaCmd
  waiting : List DmaCmd
  part : List DMAWord
  rest : List DMAWord

/-- The words that are to come for the burst writer, as far as their commands are taken up. -/
def FpgaWork.toCome (mem : BitVec 32 → DMAWord) (w : FpgaWork) : List DMAWord :=
  w.rest ++ w.waiting.flatMap (DmaCmd.hostWords mem)

/-- What the bursts to the burst writer depend on. -/
def writeSide (m : DRAMHostDMA)
    : List DmaCmd × List (BitVec 64 × BitVec 32) × BitVec 32 × BitVec 2 × BitVec 512 × List Bool
      × BitVec 32 :=
  (m.dmaCmdQ.items, m.dmaReadWordCntQ.items, m.dramWriteBurstLeft, m.dramWriteBufferOffset,
    m.dramWriteBuffer, m.dramWriteBurstDoneQ.items, m.dramWriteBurstDoneCount)

/-- The calls of the burst writer, with those that the burst under way lacks, are for the commands
that are over and the one under way; a command is counted when it is over.
-/
structure FpgaWrites (mem : BitVec 32 → DMAWord) (m : DRAMHostDMA) (commands : List DmaCmd)
    (calls : List HostDmaCall) (w : FpgaWork) : Prop where
  sized : ∀ c ∈ w.waiting, c.Sized
  bursts : m.dmaReadWordCntQ.items = w.waiting.map DmaCmd.wordCount
  left : m.dramWriteBurstLeft.toNat = w.rest.length
  offset : m.dramWriteBufferOffset.toNat = w.part.length
  fours : (w.part.length + w.rest.length) % 4 = 0
  buffer : m.dramWriteBuffer = w.part.foldl pushWord 0
  underWay : w.cur.length = min 1 w.rest.length
  named : w.ended ++ w.cur ++ w.waiting ++ toFpga m.dmaCmdQ.items = toFpga commands
  written
    : dramwCalls calls ++ (packWords (w.part ++ w.rest)).map HostDmaCall.write
      = (w.ended ++ w.cur).flatMap (DmaCmd.fpgaCalls mem)
  ended : w.ended.flatMap (DmaCmd.fpgaCalls mem) <+: dramwCalls calls
  done : m.dramWriteBurstDoneCount.toNat + m.dramWriteBurstDoneQ.items.length ≤ w.ended.length

variable {m m' : DRAMHostDMA} {commands : List DmaCmd} {calls made : List HostDmaCall}
variable {w : FpgaWork}

theorem FpgaWrites.init : FpgaWrites mem mkDRAMHostDMA [] [] ⟨[], [], [], [], []⟩ :=
  ⟨nofun, rfl, rfl, rfl, rfl, rfl, rfl, rfl, rfl, List.prefix_rfl, Nat.le_refl _⟩

/-- What does not concern the burst writer keeps the invariant. -/
theorem FpgaWrites.frame (writes : FpgaWrites mem m commands calls w)
    (same : m'.writeSide = m.writeSide) (none : dramwCalls made = [])
    : FpgaWrites mem m' commands (calls ++ made) w := by
  obtain ⟨sized, bursts, left, offset, fours, buffer, underWay, named, written, ended, done⟩ :=
    writes
  simp only [writeSide, Prod.mk.injEq] at same
  obtain ⟨queue, burstQ, burstLeft, fill, word, doneQ, count⟩ := same
  refine ⟨sized, ?_, ?_, ?_, fours, ?_, underWay, ?_, ?_, ?_, ?_⟩
  · rw [burstQ, bursts]
  · rw [burstLeft, left]
  · rw [fill, offset]
  · rw [word, buffer]
  · rw [queue, named]
  · rw [dramwCalls_append, none, List.append_nil, written]
  · rw [dramwCalls_append, none, List.append_nil]
    exact ended
  · rw [count, doneQ]
    exact done

theorem FpgaWrites.still (writes : FpgaWrites mem m commands calls w)
    (same : m'.writeSide = m.writeSide)
    : FpgaWrites mem m' commands calls w := by
  have kept := writes.frame same (show dramwCalls [] = [] from rfl)
  rwa [List.append_nil] at kept

/-- The buffer is empty when no burst is under way. -/
theorem FpgaWrites.idle (writes : FpgaWrites mem m commands calls w) (idle : w.rest = [])
    : w.cur = [] ∧ w.part = [] := by
  have fours := writes.fours
  have underWay := writes.underWay
  have offset := writes.offset
  have bound := m.dramWriteBufferOffset.isLt
  rw [idle, List.length_nil] at fours underWay
  exact ⟨List.eq_nil_of_length_eq_zero underWay, List.eq_nil_of_length_eq_zero (by omega)⟩

/-- The next burst starts: its words are what the burst under way lacks. -/
theorem FpgaWrites.dramStartBurst (writes : FpgaWrites mem m commands calls w)
    (fires : m.dramStartBurst = some (m', made))
    : ∃ w', w'.toCome mem = w.toCome mem ∧ FpgaWrites mem m' commands (calls ++ made) w' := by
  obtain ⟨idle, off, words, dmaReadWordCntQ, first, rfl, rfl⟩ := dramStartBurst_spec fires
  obtain ⟨ended, cur, waiting, part, rest⟩ := w
  have none : rest = [] := by
    have left := writes.left
    rw [idle] at left
    exact List.eq_nil_of_length_eq_zero left.symm
  obtain ⟨rfl, rfl⟩ : cur = [] ∧ part = [] := writes.idle none
  subst none
  obtain ⟨sized, bursts, -, offset, -, buffer, -, named, written, -, done⟩ := writes
  simp only at sized bursts named written done
  rw [first] at bursts
  cases waiting with
  | nil => cases bursts
  | cons c more =>
      obtain ⟨isFirst, later⟩ := List.cons.inj bursts
      obtain ⟨rfl, rfl⟩ := Prod.mk.inj isFirst
      have size := sized c (List.mem_cons_self ..)
      have some : 1 ≤ c.pages := size.1
      have all : dramwCalls calls = ended.flatMap (DmaCmd.fpgaCalls mem) := by
        simpa using written
      refine ⟨⟨ended, [c], more, [], c.hostWords mem⟩, ?_, ?_⟩
      · simp [FpgaWork.toCome]
      · refine ⟨fun other member => sized other (List.mem_cons_of_mem _ member), later, ?_, offset,
          ?_, buffer, ?_, ?_, ?_, ?_, done⟩
        · change (c.2.2.2 <<< 8).toNat = (c.hostWords mem).length
          rw [size.dmaWords, DmaCmd.length_hostWords]
        · change (0 + (c.hostWords mem).length) % 4 = 0
          rw [DmaCmd.length_hostWords]
          omega
        · change 1 = min 1 (c.hostWords mem).length
          rw [DmaCmd.length_hostWords]
          omega
        · rw [← named]
          simp
        · rw [dramwCalls_append, all, List.flatMap_append, List.append_assoc, size.burst]
          simp [dramwCalls, HostDmaCall.pcie?, DmaCmd.fpgaCalls]
        · rw [dramwCalls_append, all]
          exact List.prefix_append _ _

/-- A word that does not fill the buffer is kept in it. -/
theorem FpgaWrites.word_kept {word : DMAWord} {more : List DMAWord}
    {dramWriteBurstDoneQ : Fifo Bool 16} (writes : FpgaWrites mem m commands calls w)
    (next : w.rest = word :: more)
    (room : ¬(m.dramWriteBufferOffset = 3 ∨ m.dramWriteBurstLeft = 1))
    (same : dramWriteBurstDoneQ.items = m.dramWriteBurstDoneQ.items) (reads : ReadReorder 16 8)
    : FpgaWrites mem
        { m with
          reads
          dramWriteBurstLeft := m.dramWriteBurstLeft - 1
          dramWriteBurstDoneQ
          dramWriteBuffer := m.packed word
          dramWriteBufferOffset := m.dramWriteBufferOffset + 1 }
        commands calls { w with part := w.part ++ [word], rest := more } := by
  obtain ⟨sized, bursts, left, offset, fours, buffer, underWay, named, written, ended, done⟩ :=
    writes
  obtain ⟨notFull, notLast⟩ := not_or.mp room
  rw [next, List.length_cons] at left fours underWay
  have some : more.length ≠ 0 := by
    intro none
    rw [none] at left
    exact notLast (BitVec.eq_of_toNat_eq left)
  refine ⟨sized, bursts, ?_, ?_, ?_, ?_, ?_, named, ?_, ended, ?_⟩
  · change (m.dramWriteBurstLeft - 1).toNat = more.length
    bv_omega
  · change (m.dramWriteBufferOffset + 1).toNat = (w.part ++ [word]).length
    rw [List.length_append, List.length_singleton, ← offset]
    bv_omega
  · change ((w.part ++ [word]).length + more.length) % 4 = 0
    rw [List.length_append, List.length_singleton]
    omega
  · change m.packed word = (w.part ++ [word]).foldl pushWord 0
    rw [List.foldl_append, ← buffer]
    rfl
  · change w.cur.length = min 1 more.length
    omega
  · rw [List.append_assoc, List.singleton_append, ← next]
    exact written
  · rw [same]
    exact done

/-- A word that fills the buffer is sent with the three words before it. With the last word of the
burst, its command is over.
-/
theorem FpgaWrites.word_sent {word : DMAWord} {more : List DMAWord}
    {dramWriteBurstDoneQ : Fifo Bool 16} (writes : FpgaWrites mem m commands calls w)
    (next : w.rest = word :: more)
    (full : m.dramWriteBufferOffset = 3 ∨ m.dramWriteBurstLeft = 1)
    (reported
      : dramWriteBurstDoneQ.items
        = m.dramWriteBurstDoneQ.items ++ (if m.dramWriteBurstLeft = 1 then [true] else []))
    (reads : ReadReorder 16 8)
    : ∃ w',
        w'.toCome mem = more ++ w.waiting.flatMap (DmaCmd.hostWords mem)
        ∧ FpgaWrites mem
            { m with
              reads
              dramWriteBurstLeft := m.dramWriteBurstLeft - 1
              dramWriteBurstDoneQ
              dramWriteBufferOffset := 0
              dramWriteBuffer := 0 }
            commands (calls ++ [.write (m.packed word)]) w' := by
  obtain ⟨ended, cur, waiting, part, rest⟩ := w
  obtain ⟨sized, bursts, left, offset, fours, buffer, underWay, named, written, before, done⟩ :=
    writes
  simp only at next left offset fours buffer underWay named written before done
  subst next
  rw [List.length_cons] at left fours underWay
  have three : part.length = 3 := by
    have bound := m.dramWriteBufferOffset.isLt
    rcases full with filled | last
    case inl =>
      rw [filled] at offset
      exact offset.symm
    case inr =>
      rw [last] at left
      change 1 = _ at left
      omega
  obtain ⟨a, b, c, rfl⟩ := List.length_eq_three.mp three
  have packed : m.packed word = joinWords a b c word := by
    rw [packed, buffer]
    exact pushWord_four 0 a b c word
  have written
      : dramwCalls (calls ++ [.write (m.packed word)]) ++ (packWords more).map HostDmaCall.write
        = (ended ++ cur).flatMap (DmaCmd.fpgaCalls mem) := by
    rw [← written, packed, dramwCalls_append, List.append_assoc]
    rfl
  have grows
      : ended.flatMap (DmaCmd.fpgaCalls mem)
        <+: dramwCalls (calls ++ [.write (m.packed word)]) := by
    rw [dramwCalls_append]
    exact before.trans (List.prefix_append _ _)
  have count : (m.dramWriteBurstLeft - 1).toNat = more.length := by bv_omega
  cases more with
  | nil =>
      have last : m.dramWriteBurstLeft = 1 := BitVec.eq_of_toNat_eq left
      rw [if_pos last] at reported
      refine ⟨⟨ended ++ cur, [], waiting, [], []⟩, rfl, sized, bursts, count, rfl, rfl, rfl, rfl,
        ?_, ?_, ?_, ?_⟩
      · rw [← named, List.append_nil]
      · simpa only [List.append_nil] using written
      · rw [packWords_nil, List.map_nil, List.append_nil] at written
        rw [written]
      · change _ + dramWriteBurstDoneQ.items.length ≤ (ended ++ cur).length
        rw [reported, List.length_append, List.length_append, List.length_singleton, underWay]
        simp only [List.length_nil] at done ⊢
        omega
  | cons second later =>
      have notLast : m.dramWriteBurstLeft ≠ 1 := by
        intro last
        rw [last, List.length_cons] at left
        change 1 = _ at left
        omega
      rw [if_neg notLast, List.append_nil] at reported
      refine ⟨⟨ended, cur, waiting, [], second :: later⟩, rfl, sized, bursts, count, rfl, ?_, rfl,
        ?_, named, written, grows, ?_⟩
      · simp only [List.length_cons, List.length_nil] at fours ⊢
        omega
      · rw [underWay]
        simp only [List.length_cons]
        omega
      · change _ + dramWriteBurstDoneQ.items.length ≤ ended.length
        rw [reported]
        exact done

/-- A command that is over is counted. -/
theorem FpgaWrites.accDRAMBurstDone (writes : FpgaWrites mem m commands calls w)
    (fires : m.accDRAMBurstDone = some m')
    : FpgaWrites mem m' commands calls w := by
  obtain ⟨reported, dramWriteBurstDoneQ, first, rfl⟩ := accDRAMBurstDone_spec fires
  obtain ⟨sized, bursts, left, offset, fours, buffer, underWay, named, written, ended, done⟩ :=
    writes
  refine ⟨sized, bursts, left, offset, fours, buffer, underWay, named, written, ended, ?_⟩
  change (m.dramWriteBurstDoneCount + 1).toNat + dramWriteBurstDoneQ.items.length ≤ w.ended.length
  rw [first, List.length_cons] at done
  have count : (m.dramWriteBurstDoneCount + 1).toNat ≤ m.dramWriteBurstDoneCount.toNat + 1 := by
    rw [BitVec.toNat_add]
    exact Nat.mod_le _ _
  omega

/-- A command of the host is queued. -/
theorem FpgaWrites.getCmd {word : IOWrite} (writes : FpgaWrites mem m commands calls w)
    (fires : m.getCmd word = some m')
    : FpgaWrites mem m' (commands ++ m.commanded word) calls w := by
  obtain ⟨_, _, dmaCmdQ, _, rfl, queued⟩ := getCmd_spec fires
  obtain ⟨sized, bursts, left, offset, fours, buffer, underWay, named, written, ended, done⟩ :=
    writes
  refine ⟨sized, bursts, left, offset, fours, buffer, underWay, ?_, written, ended, done⟩
  rw [toFpga_append, ← named, queued, toFpga_append, ← List.append_assoc]
  rfl

/-- A command to the host is taken up. -/
theorem FpgaWrites.toHost_command {c : DmaCmd} {dmaCmdQ : Fifo DmaCmd 2}
    {dramReadWordCntQ : Fifo (BitVec 64 × BitVec 32) 16}
    (writes : FpgaWrites mem m commands calls w)
    (first : m.dmaCmdQ.items = c :: dmaCmdQ.items) (write : c.1 = true)
    (hostMemOff memWriteLeft : BitVec 32)
    : FpgaWrites mem { m with dmaCmdQ, hostMemOff, memWriteLeft, dramReadWordCntQ } commands calls
        w := by
  obtain ⟨sized, bursts, left, offset, fours, buffer, underWay, named, written, ended, done⟩ :=
    writes
  refine ⟨sized, bursts, left, offset, fours, buffer, underWay, ?_, written, ended, done⟩
  rw [← named, first, toFpga_cons_toHost write]

/-- A command from the host is taken up: its burst waits. -/
theorem FpgaWrites.fromHost_command {c : DmaCmd} {dmaCmdQ : Fifo DmaCmd 2}
    {dmaReadWordCntQ : Fifo (BitVec 64 × BitVec 32) 32}
    (writes : FpgaWrites mem m commands calls w)
    (first : m.dmaCmdQ.items = c :: dmaCmdQ.items) (read : c.1 = false) (size : c.Sized)
    (added : dmaReadWordCntQ.items = m.dmaReadWordCntQ.items ++ [c.wordCount])
    (hostMemOff memReadLeft : BitVec 32)
    : FpgaWrites mem { m with dmaCmdQ, hostMemOff, memReadLeft, dmaReadWordCntQ } commands calls
        { w with waiting := w.waiting ++ [c] } := by
  obtain ⟨sized, bursts, left, offset, fours, buffer, underWay, named, written, ended, done⟩ :=
    writes
  refine ⟨?_, ?_, left, offset, fours, buffer, underWay, ?_, written, ended, done⟩
  · intro other member
    rcases List.mem_append.mp member with old | new
    case inl => exact sized other old
    case inr =>
      obtain rfl := List.mem_singleton.mp new
      exact size
  · rw [added, bursts, List.map_append]
    rfl
  · rw [← named, first, toFpga_cons_fromHost read]
    simp

-----------------------------------------------------------------------------------------
-- Runs
-----------------------------------------------------------------------------------------

/-- The words from the host are those that the bursts to the burst writer lack. -/
def FpgaSide (mem : BitVec 32 → DMAWord) (P : TaggedReads mem) (m : DRAMHostDMA) (p : P.State)
    (commands : List DmaCmd) (calls : List HostDmaCall) : Prop :=
  ∃ due w,
    HostReads mem P m.reads (m.hostMemOff, m.memReadLeft) p (w.toCome mem) due
    ∧ FpgaWrites mem m commands calls w

variable {p p' : P.State} {due : List (BitVec 8 × DMAWord)}

/-- A rule of the read tags alone. -/
theorem FpgaSide.onReads {reads : ReadReorder 16 8} {due' : List (BitVec 8 × DMAWord)}
    (host : HostReads mem P reads (m.hostMemOff, m.memReadLeft) p (w.toCome mem) due')
    (writes : FpgaWrites mem m commands calls w)
    : FpgaSide mem P { m with reads } p commands (calls ++ []) :=
  ⟨due', w, host, writes.frame rfl rfl⟩

/-- A word for the burst writer. -/
theorem FpgaSide.relayDRAMWriteBurst (side : FpgaSide mem P m p commands calls)
    (fires : m.relayDRAMWriteBurst = some (m', made))
    : FpgaSide mem P m' p commands (calls ++ made) := by
  obtain ⟨due, w, host, writes⟩ := side
  obtain ⟨more, word, reads, doneQ, taken, reported, filled⟩ := relayDRAMWriteBurst_spec fires
  obtain ⟨later, isFirst, host⟩ := host.takeWord taken
  have left := writes.left
  cases next : w.rest with
  | nil =>
      rw [next, List.length_nil] at left
      bv_omega
  | cons first rest =>
      rw [FpgaWork.toCome, next, List.cons_append] at isFirst
      obtain ⟨rfl, rfl⟩ := List.cons.inj isFirst
      rcases filled with ⟨full, rfl, rfl⟩ | ⟨room, rfl, rfl⟩
      case inl =>
        obtain ⟨w', toCome, writes⟩ := writes.word_sent next full reported reads
        rw [← toCome] at host
        exact ⟨due, w', host, writes⟩
      case inr =>
        rw [if_neg (fun last => room (.inr last)), List.append_nil] at reported
        rw [List.append_nil]
        exact ⟨due, { w with part := w.part ++ [first], rest }, host,
          writes.word_kept next room reported reads⟩

/-- The next command is taken up. -/
theorem FpgaSide.procCmd (side : FpgaSide mem P m p commands calls)
    (sized : ∀ c ∈ m.dmaCmdQ.items, DmaCmd.Sized c) (fires : m.procCmd = some m')
    : FpgaSide mem P m' p commands (calls ++ []) := by
  obtain ⟨due, w, host, writes⟩ := side
  obtain ⟨noRead, -, write, hostpage, fpgapage, pages, dmaCmdQ, first, done⟩ := procCmd_spec fires
  have size := sized (write, hostpage, fpgapage, pages) (by simp [first])
  rw [noRead] at host
  rw [List.append_nil]
  rcases done with ⟨rfl, dramReadWordCntQ, -, rfl⟩ | ⟨rfl, dmaReadWordCntQ, added, rfl⟩
  case inl =>
    have host := host.moved (hostpage <<< 12)
    rw [← noRead] at host
    exact ⟨due, w, host, writes.toHost_command first rfl _ _⟩
  case inr =>
    have host := host.command size
    rw [FpgaWork.toCome, List.append_assoc] at host
    refine ⟨due, _, ?_, writes.fromHost_command first rfl size added _ _⟩
    rw [FpgaWork.toCome, List.flatMap_append, List.flatMap_singleton]
    exact host

/-- A rule that concerns neither the words from the host nor the burst writer. -/
theorem FpgaSide.frame (side : FpgaSide mem P m p commands calls) (reads : m'.reads = m.reads)
    (left : m'.memReadLeft = m.memReadLeft)
    (off : m'.hostMemOff = m.hostMemOff ∨ m.memReadLeft = 0) (same : m'.writeSide = m.writeSide)
    (none : dramwCalls made = [])
    : FpgaSide mem P m' p commands (calls ++ made) := by
  obtain ⟨due, w, host, writes⟩ := side
  refine ⟨due, w, ?_, writes.frame same none⟩
  rw [reads, left]
  rcases off with stays | nothing
  case inl =>
    rw [stays]
    exact host
  case inr =>
    rw [nothing] at host ⊢
    exact host.moved _

variable {s s' : DRAMHostDMA × P.State × R.State}

/-- A rule of the module, without the chained interface. -/
theorem FpgaSide.fire {rule : DRAMHostDMARule}
    (side : FpgaSide mem P s.1 s.2.1 commands calls) (unchained : s.1.Unchained)
    (sized : ∀ c ∈ s.1.dmaCmdQ.items, DmaCmd.Sized c)
    (fires : fire P R s rule = some (s', made))
    : FpgaSide mem P s'.1 s'.2.1 commands (calls ++ made) := by
  obtain ⟨due, w, host, writes⟩ := side
  have side : FpgaSide mem P s.1 s.2.1 commands calls := ⟨due, w, host, writes⟩
  cases rule with
  | relayChainCmd | relayChainWrite | relayChainRead =>
      have other := (unchained.fire fires).2.2
      simp at other
  | initDmaTagR =>
      obtain ⟨m, fired, ⟨⟩⟩ := plain_eq_some fires
      obtain ⟨reads, moved, rfl⟩ := onReads_spec fired
      refine .onReads (host.onReads (host.range.initDmaTagR moved)
        (host.lined.initDmaTagR (by decide) moved) ?_) writes
      obtain ⟨_, _, -, -, -, rfl⟩ := ReadReorder.initDmaTagR_spec moved
      rfl
  | sendDMARead =>
      obtain ⟨⟨tag, m⟩, sent, fires⟩ := Option.bind_eq_some_iff.mp fires
      obtain ⟨p, requested, ⟨⟩⟩ := Option.bind_eq_some_iff.mp fires
      obtain ⟨due', host⟩ := host.sendDMARead sent requested
      obtain ⟨-, -, reads, -, rfl⟩ := sendDMARead_spec sent
      exact ⟨due', w, host, writes.frame rfl rfl⟩
  | getDMARead =>
      obtain ⟨⟨⟨tag, word⟩, p⟩, returned, fires⟩ := Option.bind_eq_some_iff.mp fires
      obtain ⟨m, taken, ⟨⟩⟩ := Option.bind_eq_some_iff.mp fires
      obtain ⟨reads, fired, rfl⟩ := onReads_spec taken
      exact .onReads (host.getDMARead returned fired) writes
  | relayDmaReadWords =>
      obtain ⟨m, fired, ⟨⟩⟩ := plain_eq_some fires
      obtain ⟨reads, moved, rfl⟩ := onReads_spec fired
      refine .onReads (host.onReads (host.range.relayDmaReadWords moved)
        (host.lined.relayDmaReadWords moved) ?_) writes
      obtain ⟨_, _, _, _, -, -, rfl⟩ := ReadReorder.relayDmaReadWords_spec moved
      rfl
  | startReorderRead =>
      obtain ⟨m, fired, ⟨⟩⟩ := plain_eq_some fires
      obtain ⟨reads, moved, rfl⟩ := onReads_spec fired
      obtain ⟨_, _, taken⟩ := ReadReorder.startReorderRead_drained (by decide) host.range moved
      obtain ⟨due', host⟩ := host.drained taken
      exact .onReads host writes
  | reorderRead =>
      obtain ⟨m, fired, ⟨⟩⟩ := plain_eq_some fires
      obtain ⟨reads, moved, rfl⟩ := onReads_spec fired
      obtain ⟨_, _, taken⟩ := ReadReorder.reorderRead_drained moved
      obtain ⟨due', host⟩ := host.drained taken
      exact .onReads host writes
  | dramStartBurst =>
      obtain ⟨m, calls, fired, ⟨⟩⟩ := calling_eq_some fires
      obtain ⟨w', toCome, writes⟩ := writes.dramStartBurst fired
      obtain ⟨-, _, _, _, -, -, rfl⟩ := dramStartBurst_spec fired
      rw [← toCome] at host
      exact ⟨due, w', host, writes⟩
  | relayDRAMWriteBurst =>
      obtain ⟨m, calls, fired, ⟨⟩⟩ := calling_eq_some fires
      exact side.relayDRAMWriteBurst fired
  | accDRAMBurstDone =>
      obtain ⟨m, fired, ⟨⟩⟩ := plain_eq_some fires
      have writes := writes.accDRAMBurstDone fired
      obtain ⟨_, _, -, rfl⟩ := accDRAMBurstDone_spec fired
      rw [List.append_nil]
      exact ⟨due, w, host, writes⟩
  | procCmd =>
      obtain ⟨m, fired, ⟨⟩⟩ := plain_eq_some fires
      exact side.procCmd sized fired
  | initDmaTagW =>
      obtain ⟨m, fired, ⟨⟩⟩ := plain_eq_some fires
      obtain ⟨-, _, _, -, rfl⟩ := initDmaTagW_spec fired
      exact side.frame rfl rfl (.inl rfl) rfl rfl
  | startDRAMRead =>
      obtain ⟨⟨⟨off, words⟩, m⟩, fired, fires⟩ := Option.bind_eq_some_iff.mp fires
      obtain ⟨r, -, ⟨⟩⟩ := Option.bind_eq_some_iff.mp fires
      obtain ⟨-, _, -, rfl⟩ := startDRAMRead_spec fired
      exact side.frame rfl rfl (.inl rfl) rfl rfl
  | relayDRAMWord =>
      obtain ⟨⟨d, r⟩, -, fires⟩ := Option.bind_eq_some_iff.mp fires
      obtain ⟨m, fired, ⟨⟩⟩ := Option.bind_eq_some_iff.mp fires
      obtain ⟨-, _, -, rfl⟩ := relayDRAMWord_spec fired
      exact side.frame rfl rfl (.inl rfl) rfl rfl
  | genPcieDmaWrite =>
      obtain ⟨m, fired, ⟨⟩⟩ := plain_eq_some fires
      obtain ⟨-, noRead, _, _, -, -, rfl⟩ := genPcieDmaWrite_spec fired
      exact side.frame rfl rfl (.inr noRead) rfl rfl
  | relayDRAMRead =>
      obtain ⟨m, fired, ⟨⟩⟩ := plain_eq_some fires
      obtain ⟨_, _, _, -, -, -, rfl⟩ := relayDRAMRead_spec fired
      exact side.frame rfl rfl (.inl rfl) rfl rfl
  | sendPcieDmaWrite =>
      obtain ⟨m, calls, fired, ⟨⟩⟩ := calling_eq_some fires
      obtain ⟨-, _, _, _, _, _, _, _, -, -, -, -, rfl, rfl⟩ := sendPcieDmaWrite_spec fired
      exact side.frame rfl rfl (.inl rfl) rfl rfl
  | splitDRAMWord =>
      obtain ⟨m, calls, fired, ⟨⟩⟩ := calling_eq_some fires
      obtain ⟨-, _, _, -, ⟨-, _, _, -, rfl, rfl⟩ | ⟨-, rfl, rfl⟩⟩ := splitDRAMWord_spec fired
      · exact side.frame rfl rfl (.inl rfl) rfl rfl
      · exact side.frame rfl rfl (.inl rfl) rfl rfl
  | accDRAMBurstRDone =>
      obtain ⟨m, fired, ⟨⟩⟩ := plain_eq_some fires
      obtain ⟨_, _, -, rfl⟩ := accDRAMBurstRDone_spec fired
      exact side.frame rfl rfl (.inl rfl) rfl rfl

/-- What the burst writer has got is for the commands from host to FPGA in their order, and the
commands counted are over.
-/
theorem FpgaSide.moved (side : FpgaSide mem P m p commands calls)
    : dramwCalls calls <+: (toFpga commands).flatMap (DmaCmd.fpgaCalls mem)
      ∧ m.dramWriteBurstDoneCount.toNat ≤ (toFpga commands).length
      ∧ ((toFpga commands).take m.dramWriteBurstDoneCount.toNat).flatMap (DmaCmd.fpgaCalls mem)
        <+: dramwCalls calls := by
  obtain ⟨due, w, -, writes⟩ := side
  have count : m.dramWriteBurstDoneCount.toNat ≤ w.ended.length :=
    Nat.le_trans (Nat.le_add_right _ _) writes.done
  rw [← writes.named]
  refine ⟨?_, ?_, ?_⟩
  · refine List.IsPrefix.trans ⟨_, writes.written⟩ ?_
    have apart (later : List DmaCmd)
        : (w.ended ++ w.cur ++ later).flatMap (DmaCmd.fpgaCalls mem)
          = (w.ended ++ w.cur).flatMap (DmaCmd.fpgaCalls mem)
            ++ later.flatMap (DmaCmd.fpgaCalls mem) := by
      simp
    rw [List.append_assoc (w.ended ++ w.cur), apart]
    exact List.prefix_append _ _
  · simp only [List.length_append]
    omega
  · refine List.IsPrefix.trans ?_ writes.ended
    rw [List.append_assoc, List.append_assoc, List.take_append_of_le_length count]
    refine ⟨(w.ended.drop m.dramWriteBurstDoneCount.toNat).flatMap (DmaCmd.fpgaCalls mem), ?_⟩
    rw [← List.flatMap_append, List.take_append_drop]

end DRAMHostDMA

end BluespecPcie

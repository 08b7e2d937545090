import BluespecPcie.Dram.HostDMA

/-! `mkDRAMHostDMA`: what each rule needs and what it changes. -/

namespace BluespecPcie

open Bluespec

namespace DRAMHostDMA

variable {m m' : DRAMHostDMA} {calls : List HostDmaCall} {d : BitVec 512}

-----------------------------------------------------------------------------------------
-- Host to DRAM
-----------------------------------------------------------------------------------------

theorem onReads_spec {reads : Option (ReadReorder 16 8)} (fires : m.onReads reads = some m')
    : ∃ next, reads = some next ∧ m' = { m with reads := next } := by
  obtain ⟨next, fired, rfl⟩ := Option.map_eq_some_iff.mp fires
  exact ⟨next, fired, rfl⟩

theorem sendDMARead_spec {tag : BitVec 8} (fires : m.sendDMARead = some (tag, m'))
    : 0 < m.memReadLeft ∧ m.memWriteLeft = 0
      ∧ ∃ reads,
          m.reads.sendChunk m.chunkWords = some (tag, reads)
          ∧ m' = { m with
              reads
              memReadLeft := if 128 ≤ m.memReadLeft then m.memReadLeft - 128 else 0
              hostMemOff :=
                if 128 ≤ m.memReadLeft then m.hostMemOff + 128 else m.hostMemOff } := by
  unfold sendDMARead at fires
  split at fires
  next ready =>
    obtain ⟨⟨freeTag, reads⟩, sent, ⟨⟩⟩ := Option.bind_eq_some_iff.mp fires
    exact ⟨ready.2.1, ready.2.2, reads, sent, rfl⟩
  next => cases fires

theorem dramStartBurst_spec (fires : m.dramStartBurst = some (m', calls))
    : m.dramWriteBurstLeft = 0
      ∧ ∃ off words dmaReadWordCntQ,
          m.dmaReadWordCntQ.items = (off, words) :: dmaReadWordCntQ.items
          ∧ calls = [.writeReq off (words >>> 2)]
          ∧ m' = { m with dmaReadWordCntQ, dramWriteBurstLeft := words } := by
  unfold dramStartBurst at fires
  split at fires
  next idle =>
    obtain ⟨⟨⟨off, words⟩, dmaReadWordCntQ⟩, first, ⟨⟩⟩ := Option.bind_eq_some_iff.mp fires
    exact ⟨idle, off, words, dmaReadWordCntQ, Fifo.deq_eq_some.mp first, rfl, rfl⟩
  next => cases fires

/-- The report with the last word of a burst. -/
theorem writeBurstDone_items {q : Fifo Bool 16} (done : m.writeBurstDone = some q)
    : q.items = m.dramWriteBurstDoneQ.items
      ++ (if m.dramWriteBurstLeft = 1 then [true] else []) := by
  unfold writeBurstDone at done
  split at done
  next last => rw [if_pos last, (Fifo.enq_eq_some.mp done).2]
  next notLast =>
    cases done
    rw [if_neg notLast, List.append_nil]

theorem relayDRAMWriteBurst_spec (fires : m.relayDRAMWriteBurst = some (m', calls))
    : 0 < m.dramWriteBurstLeft
      ∧ ∃ word reads dramWriteBurstDoneQ,
          m.reads.takeWord = some (word, reads)
          ∧ dramWriteBurstDoneQ.items
            = m.dramWriteBurstDoneQ.items
              ++ (if m.dramWriteBurstLeft = 1 then [true] else [])
          ∧ ((m.dramWriteBufferOffset = 3 ∨ m.dramWriteBurstLeft = 1)
              ∧ calls = [.write (m.packed word)]
              ∧ m' = { m with
                  reads
                  dramWriteBurstLeft := m.dramWriteBurstLeft - 1
                  dramWriteBurstDoneQ
                  dramWriteBufferOffset := 0
                  dramWriteBuffer := 0 }
            ∨ ¬(m.dramWriteBufferOffset = 3 ∨ m.dramWriteBurstLeft = 1)
              ∧ calls = []
              ∧ m' = { m with
                  reads
                  dramWriteBurstLeft := m.dramWriteBurstLeft - 1
                  dramWriteBurstDoneQ
                  dramWriteBuffer := m.packed word
                  dramWriteBufferOffset := m.dramWriteBufferOffset + 1 }) := by
  unfold relayDRAMWriteBurst at fires
  split at fires
  next some =>
    obtain ⟨⟨word, reads⟩, taken, fires⟩ := Option.bind_eq_some_iff.mp fires
    obtain ⟨dramWriteBurstDoneQ, done, fires⟩ := Option.bind_eq_some_iff.mp fires
    refine ⟨some, word, reads, dramWriteBurstDoneQ, taken, writeBurstDone_items done, ?_⟩
    split at fires
    next full =>
      cases fires
      exact .inl ⟨full, rfl, rfl⟩
    next notFull =>
      cases fires
      exact .inr ⟨notFull, rfl, rfl⟩
  next => cases fires

-----------------------------------------------------------------------------------------
-- DRAM to host
-----------------------------------------------------------------------------------------

theorem initDmaTagW_spec (fires : m.initDmaTagW = some m')
    : m.dmaWriteTagInit < dmaWriteTagCount
      ∧ ∃ dmaWriteFreeTagQ dmaWriteTagInitDone,
          dmaWriteFreeTagQ.items = m.dmaWriteFreeTagQ.items ++ [16 + m.dmaWriteTagInit]
          ∧ m' = { m with
              dmaWriteTagInit := m.dmaWriteTagInit + 1
              dmaWriteFreeTagQ
              dmaWriteTagInitDone } := by
  unfold initDmaTagW at fires
  split at fires
  next more =>
    obtain ⟨dmaWriteFreeTagQ, added, ⟨⟩⟩ := Option.bind_eq_some_iff.mp fires
    exact ⟨more.1, dmaWriteFreeTagQ, _, (Fifo.enq_eq_some.mp added).2, rfl⟩
  next => cases fires

theorem startDRAMRead_spec {off : BitVec 64} {words : BitVec 32}
    (fires : m.startDRAMRead = some ((off, words), m'))
    : m.dramBurstReadLeft = 0
      ∧ ∃ dramReadWordCntQ,
          m.dramReadWordCntQ.items = (off, words) :: dramReadWordCntQ.items
          ∧ m' = { m with dramReadWordCntQ, dramBurstReadLeft := words } := by
  unfold startDRAMRead at fires
  split at fires
  next idle =>
    obtain ⟨⟨⟨_, _⟩, dramReadWordCntQ⟩, first, ⟨⟩⟩ := Option.bind_eq_some_iff.mp fires
    exact ⟨idle, dramReadWordCntQ, Fifo.deq_eq_some.mp first, rfl⟩
  next => cases fires

theorem relayDRAMWord_spec (fires : m.relayDRAMWord d = some m')
    : 0 < m.dramBurstReadLeft
      ∧ ∃ dramReadWordQ,
          dramReadWordQ.items = m.dramReadWordQ.items ++ [d]
          ∧ m' = { m with dramBurstReadLeft := m.dramBurstReadLeft - 1, dramReadWordQ } := by
  unfold relayDRAMWord at fires
  split at fires
  next some =>
    obtain ⟨dramReadWordQ, added, ⟨⟩⟩ := Option.bind_eq_some_iff.mp fires
    exact ⟨some, dramReadWordQ, (Fifo.enq_eq_some.mp added).2, rfl⟩
  next => cases fires

theorem genPcieDmaWrite_spec (fires : m.genPcieDmaWrite = some m')
    : 0 < m.memWriteLeft ∧ m.memReadLeft = 0
      ∧ ∃ pcieWriteReqQ dramReadBurstDoneQ,
          pcieWriteReqQ.items = m.pcieWriteReqQ.items ++ [(m.hostMemOff, m.writeWords)]
          ∧ dramReadBurstDoneQ.items
            = m.dramReadBurstDoneQ.items ++ [decide (m.memWriteLeft ≤ 128)]
          ∧ m' = { m with
              memWriteLeft := if 128 < m.memWriteLeft then m.memWriteLeft - 128 else 0
              hostMemOff :=
                if 128 < m.memWriteLeft then m.hostMemOff + 128 else m.hostMemOff
              pcieWriteReqQ
              dramReadBurstDoneQ } := by
  unfold genPcieDmaWrite at fires
  split at fires
  next ready =>
    obtain ⟨pcieWriteReqQ, added, fires⟩ := Option.bind_eq_some_iff.mp fires
    obtain ⟨dramReadBurstDoneQ, noted, ⟨⟩⟩ := Option.bind_eq_some_iff.mp fires
    exact ⟨ready.1, ready.2, pcieWriteReqQ, dramReadBurstDoneQ, (Fifo.enq_eq_some.mp added).2,
      (Fifo.enq_eq_some.mp noted).2, rfl⟩
  next => cases fires

theorem relayDRAMRead_spec (fires : m.relayDRAMRead = some m')
    : ∃ d dramReadWordQ dramReadWordQ2,
        m.dramReadWordQ.items = d :: dramReadWordQ.items
        ∧ dramReadWordQ2.items = m.dramReadWordQ2.items ++ [d]
        ∧ m.dramReadWordQ2.items.length < 128
        ∧ m' = { m with
            dramReadWordQ
            dramReadWordQ2
            dramReadWordCntUp := m.dramReadWordCntUp + 1 } := by
  obtain ⟨⟨d, dramReadWordQ⟩, first, fires⟩ := Option.bind_eq_some_iff.mp fires
  obtain ⟨dramReadWordQ2, added, ⟨⟩⟩ := Option.bind_eq_some_iff.mp fires
  exact ⟨d, dramReadWordQ, dramReadWordQ2, Fifo.deq_eq_some.mp first,
    (Fifo.enq_eq_some.mp added).2, (Fifo.enq_eq_some.mp added).1, rfl⟩

theorem sendPcieDmaWrite_spec (fires : m.sendPcieDmaWrite = some (m', calls))
    : m.dmaCurWriteLeft = 0
      ∧ ∃ off words pcieWriteReqQ writeTag dmaWriteFreeTagQ last dramReadBurstDoneQ,
          m.pcieWriteReqQ.items = (off, words) :: pcieWriteReqQ.items
          ∧ m.dmaWriteFreeTagQ.items = writeTag :: dmaWriteFreeTagQ.items
          ∧ m.dramReadBurstDoneQ.items = last :: dramReadBurstDoneQ.items
          ∧ m.wordsReady words = true
          ∧ calls = [.pcie (.dmaWriteReq off (words.setWidth 10) writeTag)]
          ∧ m' = { m with
              pcieWriteReqQ
              dmaWriteFreeTagQ
              dmaWriteCurTag := writeTag
              dmaCurWriteLeft := words
              dramReadBurstDoneQ
              dmaCurWriteLast := last } := by
  unfold sendPcieDmaWrite at fires
  split at fires
  next idle =>
    obtain ⟨⟨⟨off, words⟩, pcieWriteReqQ⟩, first, fires⟩ := Option.bind_eq_some_iff.mp fires
    obtain ⟨⟨writeTag, dmaWriteFreeTagQ⟩, free, fires⟩ := Option.bind_eq_some_iff.mp fires
    obtain ⟨⟨last, dramReadBurstDoneQ⟩, noted, fires⟩ := Option.bind_eq_some_iff.mp fires
    simp only at fires
    split at fires
    next ready =>
      cases fires
      exact ⟨idle, off, words, pcieWriteReqQ, writeTag, dmaWriteFreeTagQ, last,
        dramReadBurstDoneQ, Fifo.deq_eq_some.mp first, Fifo.deq_eq_some.mp free,
        Fifo.deq_eq_some.mp noted, ready, rfl, rfl⟩
    next => cases fires
  next => cases fires

/-- The report with the last word of a command. -/
theorem writeDone_items {q : Fifo Bool 16} (done : m.writeDone = some q)
    : q.items = m.pcieDmaWriteDoneQ.items
      ++ (if m.dmaCurWriteLeft = 1 ∧ m.dmaCurWriteLast = true then [true] else []) := by
  unfold writeDone at done
  split at done
  next last => rw [if_pos last, (Fifo.enq_eq_some.mp done).2]
  next notLast =>
    cases done
    rw [if_neg notLast, List.append_nil]

/-- The word that `splitDRAMWord` sends, and what it keeps of the DRAM word. -/
theorem splitDRAMWord_spec (fires : m.splitDRAMWord = some (m', calls))
    : 0 < m.dmaCurWriteLeft
      ∧ ∃ dmaWriteFreeTagQ pcieDmaWriteDoneQ,
          pcieDmaWriteDoneQ.items
            = m.pcieDmaWriteDoneQ.items
              ++ (if m.dmaCurWriteLeft = 1 ∧ m.dmaCurWriteLast = true then [true] else [])
          ∧ ((m.dmaWriteDRAMWordBufferOffset = 0
              ∧ ∃ d dramReadWordQ2,
                  m.dramReadWordQ2.items = d :: dramReadWordQ2.items
                  ∧ calls = [.pcie (.dmaWriteData (d.setWidth 128) m.dmaWriteCurTag)]
                  ∧ m' = { m with
                      dmaCurWriteLeft := m.dmaCurWriteLeft - 1
                      dmaWriteDRAMWordBufferOffset := m.dmaWriteDRAMWordBufferOffset + 1
                      dmaWriteFreeTagQ
                      pcieDmaWriteDoneQ
                      dramReadWordQ2
                      dramReadWordCntDn := m.dramReadWordCntDn + 1
                      dmaWriteDRAMWordBuffer := d >>> 128 })
            ∨ (m.dmaWriteDRAMWordBufferOffset ≠ 0
              ∧ calls
                = [.pcie (.dmaWriteData (m.dmaWriteDRAMWordBuffer.setWidth 128)
                    m.dmaWriteCurTag)]
              ∧ m' = { m with
                  dmaCurWriteLeft := m.dmaCurWriteLeft - 1
                  dmaWriteDRAMWordBufferOffset := m.dmaWriteDRAMWordBufferOffset + 1
                  dmaWriteFreeTagQ
                  pcieDmaWriteDoneQ
                  dmaWriteDRAMWordBuffer := m.dmaWriteDRAMWordBuffer >>> 128 })) := by
  unfold splitDRAMWord at fires
  split at fires
  next ready =>
    obtain ⟨dmaWriteFreeTagQ, freed, fires⟩ := Option.bind_eq_some_iff.mp fires
    obtain ⟨pcieDmaWriteDoneQ, done, fires⟩ := Option.bind_eq_some_iff.mp fires
    refine ⟨ready.1, dmaWriteFreeTagQ, pcieDmaWriteDoneQ, writeDone_items done, ?_⟩
    simp only at fires
    split at fires
    next fresh =>
      obtain ⟨⟨d, dramReadWordQ2⟩, first, ⟨⟩⟩ := Option.bind_eq_some_iff.mp fires
      exact .inl ⟨fresh, d, dramReadWordQ2, Fifo.deq_eq_some.mp first, rfl, rfl⟩
    next kept =>
      cases fires
      exact .inr ⟨kept, rfl, rfl⟩
  next => cases fires

-----------------------------------------------------------------------------------------
-- Commands
-----------------------------------------------------------------------------------------

theorem accDRAMBurstDone_spec (fires : m.accDRAMBurstDone = some m')
    : ∃ done dramWriteBurstDoneQ,
        m.dramWriteBurstDoneQ.items = done :: dramWriteBurstDoneQ.items
        ∧ m' = { m with
            dramWriteBurstDoneQ
            dramWriteBurstDoneCount := m.dramWriteBurstDoneCount + 1 } := by
  obtain ⟨⟨done, dramWriteBurstDoneQ⟩, first, ⟨⟩⟩ := Option.bind_eq_some_iff.mp fires
  exact ⟨done, dramWriteBurstDoneQ, Fifo.deq_eq_some.mp first, rfl⟩

theorem accDRAMBurstRDone_spec (fires : m.accDRAMBurstRDone = some m')
    : ∃ done pcieDmaWriteDoneQ,
        m.pcieDmaWriteDoneQ.items = done :: pcieDmaWriteDoneQ.items
        ∧ m' = { m with
            pcieDmaWriteDoneQ
            dramReadBurstDoneCount := m.dramReadBurstDoneCount + 1 } := by
  obtain ⟨⟨done, pcieDmaWriteDoneQ⟩, first, ⟨⟩⟩ := Option.bind_eq_some_iff.mp fires
  exact ⟨done, pcieDmaWriteDoneQ, Fifo.deq_eq_some.mp first, rfl⟩

theorem procCmd_spec (fires : m.procCmd = some m')
    : m.memReadLeft = 0 ∧ m.memWriteLeft = 0
      ∧ ∃ write hostpage fpgapage pages dmaCmdQ,
          m.dmaCmdQ.items = (write, hostpage, fpgapage, pages) :: dmaCmdQ.items
          ∧ ((write = true
              ∧ ∃ dramReadWordCntQ,
                  dramReadWordCntQ.items
                    = m.dramReadWordCntQ.items ++ [(fpgapage.setWidth 64 <<< 12, pages <<< 6)]
                  ∧ m' = { m with
                      dmaCmdQ
                      hostMemOff := hostpage <<< 12
                      memWriteLeft := pages <<< 12
                      dramReadWordCntQ })
            ∨ (write = false
              ∧ ∃ dmaReadWordCntQ,
                  dmaReadWordCntQ.items
                    = m.dmaReadWordCntQ.items ++ [(fpgapage.setWidth 64 <<< 12, pages <<< 8)]
                  ∧ m' = { m with
                      dmaCmdQ
                      hostMemOff := hostpage <<< 12
                      memReadLeft := pages <<< 12
                      dmaReadWordCntQ })) := by
  unfold procCmd at fires
  split at fires
  next idle =>
    obtain ⟨⟨⟨write, hostpage, fpgapage, pages⟩, dmaCmdQ⟩, first, fires⟩ :=
      Option.bind_eq_some_iff.mp fires
    refine ⟨idle.1, idle.2, write, hostpage, fpgapage, pages, dmaCmdQ,
      Fifo.deq_eq_some.mp first, ?_⟩
    cases write with
    | true =>
        obtain ⟨dramReadWordCntQ, added, ⟨⟩⟩ := Option.bind_eq_some_iff.mp fires
        exact .inl ⟨rfl, dramReadWordCntQ, (Fifo.enq_eq_some.mp added).2, rfl⟩
    | false =>
        obtain ⟨dmaReadWordCntQ, added, ⟨⟩⟩ := Option.bind_eq_some_iff.mp fires
        exact .inr ⟨rfl, dmaReadWordCntQ, (Fifo.enq_eq_some.mp added).2, rfl⟩
  next => cases fires

/-- A write of the host sets a register, or it is a command or a user write. -/
theorem getCmd_spec {w : IOWrite} (fires : m.getCmd w = some m')
    : ∃ hostMemTemp fpgaMemTemp dmaCmdQ pcieOutQ,
        m' = { m with hostMemTemp, fpgaMemTemp, dmaCmdQ, pcieOutQ }
        ∧ dmaCmdQ.items
          = m.dmaCmdQ.items
            ++ (if w.addr >>> 2 = 258 then [(false, m.hostMemTemp, m.fpgaMemTemp, w.data)]
                else if w.addr >>> 2 = 259 then [(true, m.hostMemTemp, m.fpgaMemTemp, w.data)]
                else []) := by
  unfold getCmd at fires
  simp only at fires
  split at fires
  next host =>
    cases fires
    exact ⟨_, _, _, _, rfl, by simp [host]⟩
  split at fires
  next fpga =>
    cases fires
    exact ⟨_, _, _, _, rfl, by simp [fpga]⟩
  split at fires
  next toFpga =>
    obtain ⟨dmaCmdQ, added, ⟨⟩⟩ := Option.bind_eq_some_iff.mp fires
    exact ⟨_, _, _, _, rfl, by rw [if_pos toFpga, (Fifo.enq_eq_some.mp added).2]⟩
  next notToFpga =>
    rw [if_neg notToFpga]
    split at fires
    next toHost =>
      obtain ⟨dmaCmdQ, added, ⟨⟩⟩ := Option.bind_eq_some_iff.mp fires
      exact ⟨_, _, _, _, rfl, by rw [if_pos toHost, (Fifo.enq_eq_some.mp added).2]⟩
    next other =>
      obtain ⟨pcieOutQ, -, ⟨⟩⟩ := Option.bind_eq_some_iff.mp fires
      exact ⟨_, _, _, _, rfl, by rw [if_neg other, List.append_nil]⟩

theorem dataReceive_spec {w : IOWrite} (fires : m.dataReceive = some (w, m'))
    : ∃ pcieOutQ, m' = { m with pcieOutQ } := by
  obtain ⟨⟨_, pcieOutQ⟩, -, ⟨⟩⟩ := Option.bind_eq_some_iff.mp fires
  exact ⟨pcieOutQ, rfl⟩

-----------------------------------------------------------------------------------------
-- The chained DRAM interface
-----------------------------------------------------------------------------------------

theorem chainCmd_spec {write : Bool} {addr : BitVec 64} {words : BitVec 32}
    (fires : m.chainCmd = some ((write, addr, words), m'))
    : m.chainReadWordsLeft = 0 ∧ m.chainWriteWordsLeft = 0
      ∧ ∃ chainIoCmdQ,
          m.chainIoCmdQ.items = (write, addr, words) :: chainIoCmdQ.items
          ∧ m'
            = (if write = true then { m with chainIoCmdQ, chainWriteWordsLeft := words }
              else { m with chainIoCmdQ, chainReadWordsLeft := words }) := by
  unfold chainCmd at fires
  split at fires
  next idle =>
    obtain ⟨⟨⟨_, _, _⟩, chainIoCmdQ⟩, first, ⟨⟩⟩ := Option.bind_eq_some_iff.mp fires
    exact ⟨idle.1, idle.2, chainIoCmdQ, Fifo.deq_eq_some.mp first, rfl⟩
  next => cases fires

theorem relayChainWrite_spec (fires : m.relayChainWrite = some (m', calls))
    : 0 < m.chainWriteWordsLeft ∧ m.dramWriteBurstLeft = 0
      ∧ ∃ word chainWriteQ,
          m.chainWriteQ.items = word :: chainWriteQ.items
          ∧ calls = [.write word]
          ∧ m' = { m with
              chainWriteQ
              chainWriteWordsLeft := m.chainWriteWordsLeft - 1 } := by
  unfold relayChainWrite at fires
  split at fires
  next ready =>
    obtain ⟨⟨word, chainWriteQ⟩, first, ⟨⟩⟩ := Option.bind_eq_some_iff.mp fires
    exact ⟨ready.1, ready.2, word, chainWriteQ, Fifo.deq_eq_some.mp first, rfl, rfl⟩
  next => cases fires

theorem relayChainRead_spec (fires : m.relayChainRead d = some m')
    : 0 < m.chainReadWordsLeft ∧ m.dramBurstReadLeft = 0
      ∧ ∃ chainReadQ,
          chainReadQ.items = m.chainReadQ.items ++ [d]
          ∧ m' = { m with
              chainReadWordsLeft := m.chainReadWordsLeft - 1
              chainReadQ } := by
  unfold relayChainRead at fires
  split at fires
  next ready =>
    obtain ⟨chainReadQ, added, ⟨⟩⟩ := Option.bind_eq_some_iff.mp fires
    exact ⟨ready.1, ready.2, chainReadQ, (Fifo.enq_eq_some.mp added).2, rfl⟩
  next => cases fires

theorem chainReq_spec {write : Bool} {addr : BitVec 64} {words : BitVec 32}
    (fires : m.chainReq write addr words = some m')
    : ∃ chainIoCmdQ,
        chainIoCmdQ.items = m.chainIoCmdQ.items ++ [(write, addr, words)]
        ∧ m' = { m with chainIoCmdQ } := by
  obtain ⟨chainIoCmdQ, added, ⟨⟩⟩ := Option.bind_eq_some_iff.mp fires
  exact ⟨chainIoCmdQ, (Fifo.enq_eq_some.mp added).2, rfl⟩

theorem chainWrite_spec (fires : m.chainWrite d = some m')
    : ∃ chainWriteQ, m' = { m with chainWriteQ } := by
  obtain ⟨chainWriteQ, -, ⟨⟩⟩ := Option.bind_eq_some_iff.mp fires
  exact ⟨chainWriteQ, rfl⟩

theorem chainRead_spec (fires : m.chainRead = some (d, m'))
    : ∃ chainReadQ,
        m.chainReadQ.items = d :: chainReadQ.items ∧ m' = { m with chainReadQ } := by
  obtain ⟨⟨_, chainReadQ⟩, first, ⟨⟩⟩ := Option.bind_eq_some_iff.mp fires
  exact ⟨chainReadQ, Fifo.deq_eq_some.mp first, rfl⟩

end DRAMHostDMA

end BluespecPcie

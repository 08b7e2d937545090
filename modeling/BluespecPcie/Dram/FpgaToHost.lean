import BluespecPcie.Dram.PageCommands

/-! `mkDRAMHostDMA`: pages from FPGA to host. The words of the burst reader are split in four, and
eight of the parts at a time are written to the host.
-/

namespace BluespecPcie

open Bluespec

-----------------------------------------------------------------------------------------
-- Calls of the PCIe interface
-----------------------------------------------------------------------------------------

section Calls

variable (calls : List DmaWriteCall) (addr : BitVec 32) (count : BitVec 10) (tag : BitVec 8)
variable (word : DMAWord)

theorem hostStores_request
    : hostStores (calls ++ [.dmaWriteReq addr count tag]) = hostStores calls := by
  rw [hostStores, tagsAfter_snoc]
  rfl

theorem hostStores_word
    : hostStores (calls ++ [.dmaWriteData word tag])
      = hostStores calls ++ [(TaggedDma.direct.next (tagsAfter calls) tag, word)] := by
  rw [hostStores, tagsAfter_snoc]
  rfl

theorem hostRequests_request
    : hostRequests (calls ++ [.dmaWriteReq addr count tag])
      = hostRequests calls ++ [(addr, count)] := by
  simp [hostRequests]

theorem hostRequests_word
    : hostRequests (calls ++ [.dmaWriteData word tag]) = hostRequests calls := by
  simp [hostRequests]

theorem next_request
    : TaggedDma.direct.next (tagsAfter (calls ++ [.dmaWriteReq addr count tag])) tag = addr := by
  rw [tagsAfter_snoc]
  change (Function.update (tagsAfter calls).1 tag (addr, count.toNat) tag).1 = addr
  rw [Function.update_self]

theorem next_word
    : TaggedDma.direct.next (tagsAfter (calls ++ [.dmaWriteData word tag])) tag
      = TaggedDma.direct.next (tagsAfter calls) tag + 16 := by
  rw [tagsAfter_snoc]
  change (Function.update (tagsAfter calls).1 tag
    (((tagsAfter calls).1 tag).1 + 16, ((tagsAfter calls).1 tag).2 - 1) tag).1 = _
  rw [Function.update_self]
  rfl

theorem lacks_request (other : BitVec 8)
    : TaggedDma.direct.lacks (tagsAfter (calls ++ [.dmaWriteReq addr count tag])) other
      = if other = tag then count.toNat else TaggedDma.direct.lacks (tagsAfter calls) other := by
  rw [tagsAfter_snoc]
  change (Function.update (tagsAfter calls).1 tag (addr, count.toNat) other).2 = _
  rw [Function.update_apply]
  split
  next => rfl
  next => rfl

theorem lacks_word (other : BitVec 8)
    : TaggedDma.direct.lacks (tagsAfter (calls ++ [.dmaWriteData word tag])) other
      = if other = tag then TaggedDma.direct.lacks (tagsAfter calls) tag - 1
        else TaggedDma.direct.lacks (tagsAfter calls) other := by
  rw [tagsAfter_snoc]
  change (Function.update (tagsAfter calls).1 tag
    (((tagsAfter calls).1 tag).1 + 16, ((tagsAfter calls).1 tag).2 - 1) other).2 = _
  rw [Function.update_apply]
  split
  next => rfl
  next => rfl

end Calls

namespace DRAMHostDMA

-----------------------------------------------------------------------------------------
-- The words of a DRAM word
-----------------------------------------------------------------------------------------

variable {mem : BitVec 32 → DMAWord} {P : TaggedReads mem} {R : BurstReader}
variable {m m' : DRAMHostDMA}

/-- The words that are left of the DRAM word in `dmaWriteDRAMWordBuffer`. -/
def heldWords (m : DRAMHostDMA) : List DMAWord :=
  (splitWord m.dmaWriteDRAMWordBuffer).take ((4 - m.dmaWriteDRAMWordBufferOffset.toNat) % 4)

/-- The first word of a DRAM word, and those that are held of it. -/
theorem splitWord_eq (d : BitVec 512)
    : splitWord d = d.setWidth 128 :: (splitWord (d >>> 128)).take 3 := rfl

/-- The next word that is held. -/
theorem heldWords_cons (kept : m.dmaWriteDRAMWordBufferOffset ≠ 0)
    : m.heldWords
      = m.dmaWriteDRAMWordBuffer.setWidth 128
        :: (splitWord (m.dmaWriteDRAMWordBuffer >>> 128)).take
          ((4 - (m.dmaWriteDRAMWordBufferOffset + 1).toNat) % 4) := by
  rw [heldWords]
  generalize m.dmaWriteDRAMWordBufferOffset = offset at kept ⊢
  obtain rfl | rfl | rfl : offset = 1 ∨ offset = 2 ∨ offset = 3 := by bv_omega
  · rfl
  · rfl
  · rfl

-----------------------------------------------------------------------------------------
-- Bursts to the host
-----------------------------------------------------------------------------------------

/-- The calls are for these bursts of eight words, of which `tag` lacks the last `left` words. -/
structure BurstCalls (calls : List DmaWriteCall) (tag : BitVec 8) (left : Nat)
    (bursts : List (BitVec 32 × Bool)) : Prop where
  requested : hostRequests calls = bursts.map (fun burst => (burst.1, 8))
  lacks
    : ∀ other, TaggedDma.direct.lacks (tagsAfter calls) other = if other = tag then left else 0
  addrs
    : (hostStores calls).map Prod.fst
        ++ TaggedDma.wordAddrs (TaggedDma.direct.next (tagsAfter calls) tag) left
      = burstWords bursts
  tagged : WellTagged calls

section BurstCalls

variable {calls : List DmaWriteCall} {tag : BitVec 8} {left : Nat}
variable {bursts : List (BitVec 32 × Bool)}

theorem BurstCalls.init : BurstCalls [] 0 0 [] := by
  refine ⟨rfl, ?_, rfl, .nil⟩
  intro other
  split
  next => rfl
  next => rfl

/-- A request, when no word is lacking. -/
theorem BurstCalls.request (sent : BurstCalls calls tag 0 bursts) (burst : BitVec 32 × Bool)
    (writeTag : BitVec 8)
    : BurstCalls (calls ++ [.dmaWriteReq burst.1 8 writeTag]) writeTag 8 (bursts ++ [burst]) := by
  obtain ⟨requested, lacks, addrs, tagged⟩ := sent
  have none : ∀ other, TaggedDma.direct.lacks (tagsAfter calls) other = 0 := by
    intro other
    rw [lacks]
    exact ite_self 0
  refine ⟨?_, ?_, ?_, tagged.snoc (none writeTag)⟩
  · rw [hostRequests_request, requested, List.map_append]
    rfl
  · intro other
    rw [lacks_request, none other]
    rfl
  · rw [hostStores_request, next_request, burstWords_append, burstWords_singleton, ← addrs]
    simp [TaggedDma.wordAddrs]

/-- A word, when one is lacking. -/
theorem BurstCalls.word (sent : BurstCalls calls tag (left + 1) bursts) (word : DMAWord)
    : BurstCalls (calls ++ [.dmaWriteData word tag]) tag left bursts := by
  obtain ⟨requested, lacks, addrs, tagged⟩ := sent
  have lacking : TaggedDma.direct.lacks (tagsAfter calls) tag = left + 1 := by
    rw [lacks, if_pos rfl]
  have fits : DmaWriteCall.Fits (tagsAfter calls) (.dmaWriteData word tag) := by
    change 0 < TaggedDma.direct.lacks (tagsAfter calls) tag
    rw [lacking]
    exact Nat.succ_pos left
  refine ⟨?_, ?_, ?_, tagged.snoc fits⟩
  · rw [hostRequests_word, requested]
  · intro other
    rw [lacks_word, lacking, lacks other]
    split
    next => rfl
    next => rfl
  · rw [← addrs, hostStores_word, next_word, TaggedDma.wordAddrs_succ]
    simp

/-- With no word lacking, the stores are those of the bursts. -/
theorem BurstCalls.complete (sent : BurstCalls calls tag 0 bursts)
    : (hostStores calls).map Prod.fst = burstWords bursts := by
  rw [← sent.addrs]
  exact (List.append_nil _).symm

end BurstCalls

/-- The bursts of the commands to the host: those that are stored, the one under way, and those that
wait.
-/
structure HostWork where
  ended : List (BitVec 32 × Bool)
  cur : List (BitVec 32 × Bool)
  pending : List (BitVec 32 × Bool)

/-- What the bursts to the host depend on, `hostMemOff` apart. -/
def hostSide (m : DRAMHostDMA)
    : (BitVec 32 × List (BitVec 32 × BitVec 8) × List Bool × List DmaCmd)
      × (BitVec 8 × Bool × BitVec 8) × (BitVec 512 × BitVec 2)
      × (List (BitVec 512) × List (BitVec 512)) × (List Bool × BitVec 32) :=
  ((m.memWriteLeft, m.pcieWriteReqQ.items, m.dramReadBurstDoneQ.items, m.dmaCmdQ.items),
    (m.dmaCurWriteLeft, m.dmaCurWriteLast, m.dmaWriteCurTag),
    (m.dmaWriteDRAMWordBuffer, m.dmaWriteDRAMWordBufferOffset),
    (m.dramReadWordQ2.items, m.dramReadWordQ.items),
    (m.pcieDmaWriteDoneQ.items, m.dramReadBurstDoneCount))

/-- The calls store the words of DRAM at the addresses of the bursts; `words` are those that the
burst reader has returned.
-/
structure HostSide (m : DRAMHostDMA) (commands : List DmaCmd) (calls : List DmaWriteCall)
    (words : List (BitVec 512)) (w : HostWork) : Prop where
  whole : m.memWriteLeft.toNat % 128 = 0
  reqs : m.pcieWriteReqQ.items = w.pending.map (fun burst => (burst.1, 8))
  marks : m.dramReadBurstDoneQ.items = w.pending.map Prod.snd
  named
    : w.ended ++ w.cur ++ w.pending ++ pageBursts m.hostMemOff (m.memWriteLeft.toNat / 128)
        ++ (toHost m.dmaCmdQ.items).flatMap DmaCmd.hostBursts
      = (toHost commands).flatMap DmaCmd.hostBursts
  underWay : w.cur.length = min 1 m.dmaCurWriteLeft.toNat
  last : ∀ burst ∈ w.cur, burst.2 = m.dmaCurWriteLast
  sent : BurstCalls calls m.dmaWriteCurTag m.dmaCurWriteLeft.toNat (w.ended ++ w.cur)
  stored
    : (hostStores calls).map Prod.snd ++ m.heldWords
        ++ (m.dramReadWordQ2.items ++ m.dramReadWordQ.items).flatMap splitWord
      = words.flatMap splitWord
  ended : burstWords w.ended <+: (hostStores calls).map Prod.fst
  done
    : m.dramReadBurstDoneCount.toNat + m.pcieDmaWriteDoneQ.items.length
      ≤ w.ended.countP Prod.snd

variable {commands : List DmaCmd} {calls : List DmaWriteCall} {words : List (BitVec 512)}
variable {w : HostWork}

theorem HostSide.init : HostSide mkDRAMHostDMA [] [] [] ⟨[], [], []⟩ :=
  ⟨rfl, rfl, rfl, rfl, rfl, nofun, .init, rfl, List.prefix_rfl, Nat.le_refl _⟩

/-- What does not concern the host keeps the invariant. -/
theorem HostSide.frame (side : HostSide m commands calls words w)
    (off : m'.hostMemOff = m.hostMemOff ∨ m.memWriteLeft = 0) (same : m'.hostSide = m.hostSide)
    : HostSide m' commands calls words w := by
  obtain ⟨whole, reqs, marks, named, underWay, last, sent, stored, ended, done⟩ := side
  simp only [hostSide, Prod.mk.injEq] at same
  obtain ⟨⟨left, reqQ, markQ, queue⟩, ⟨burstLeft, burstLast, tag⟩, ⟨buffer, offset⟩, ⟨q2, q⟩,
    doneQ, count⟩ := same
  refine ⟨?_, ?_, ?_, ?_, ?_, ?_, ?_, ?_, ended, ?_⟩
  · rw [left, whole]
  · rw [reqQ, reqs]
  · rw [markQ, marks]
  · rw [left, queue, ← named]
    rcases off with stays | nothing
    case inl => rw [stays]
    case inr =>
      rw [nothing]
      rfl
  · rw [burstLeft, underWay]
  · rw [burstLast]
    exact last
  · rw [tag, burstLeft]
    exact sent
  · rw [q2, q, heldWords, buffer, offset]
    exact stored
  · rw [doneQ, count]
    exact done

/-- Writes are for eight words where whole bursts are left. -/
theorem writeWords_whole (more : 0 < m.memWriteLeft) (whole : m.memWriteLeft.toNat % 128 = 0)
    : m.writeWords = 8 := by
  unfold writeWords
  split
  next => rfl
  next few =>
    obtain last : m.memWriteLeft = 128 := by bv_omega
    rw [last]
    rfl

/-- The first of the bursts that are left. -/
theorem leftBursts_cons (more : 0 < m.memWriteLeft) (whole : m.memWriteLeft.toNat % 128 = 0)
    : pageBursts m.hostMemOff (m.memWriteLeft.toNat / 128)
      = (m.hostMemOff, decide (m.memWriteLeft ≤ 128))
        :: pageBursts (if 128 < m.memWriteLeft then m.hostMemOff + 128 else m.hostMemOff)
          ((if 128 < m.memWriteLeft then m.memWriteLeft - 128 else 0).toNat / 128) := by
  by_cases many : 128 < m.memWriteLeft
  case pos =>
    have rest : (m.memWriteLeft - 128).toNat = m.memWriteLeft.toNat - 128 := by bv_omega
    have above : 128 < m.memWriteLeft.toNat := BitVec.lt_def.mp many
    obtain ⟨n, count⟩ : ∃ n, m.memWriteLeft.toNat / 128 = n + 1 + 1 :=
      ⟨m.memWriteLeft.toNat / 128 - 2, by omega⟩
    have later : (m.memWriteLeft.toNat - 128) / 128 = n + 1 := by omega
    rw [if_pos many, if_pos many, rest, count, later, pageBursts_succ]
    simpa [TaggedDma.wordAddr] using many
  case neg =>
    obtain last : m.memWriteLeft = 128 := by bv_omega
    have one : (128 : BitVec 32).toNat / 128 = 0 + 1 := rfl
    rw [last, one, pageBursts_succ]
    rfl

/-- The next write is queued: it is the first of those that are left. -/
theorem HostSide.genPcieDmaWrite (side : HostSide m commands calls words w)
    (fires : m.genPcieDmaWrite = some m')
    : ∃ w', HostSide m' commands calls words w' := by
  obtain ⟨more, -, pcieWriteReqQ, dramReadBurstDoneQ, added, noted, rfl⟩ :=
    genPcieDmaWrite_spec fires
  obtain ⟨ended, cur, pending⟩ := w
  obtain ⟨whole, reqs, marks, named, underWay, last, sent, stored, before, done⟩ := side
  refine ⟨⟨ended, cur, pending ++ [(m.hostMemOff, decide (m.memWriteLeft ≤ 128))]⟩, ?_, ?_, ?_, ?_,
    underWay, last, sent, stored, before, done⟩
  · change (if 128 < m.memWriteLeft then m.memWriteLeft - 128 else 0).toNat % 128 = 0
    split
    next => bv_omega
    next => rfl
  · rw [added, reqs, List.map_append, writeWords_whole more whole]
    rfl
  · rw [noted, marks, List.map_append]
    rfl
  · rw [← named, leftBursts_cons more whole]
    simp

/-- A word of DRAM moves on. -/
theorem HostSide.relayDRAMRead (side : HostSide m commands calls words w)
    (fires : m.relayDRAMRead = some m')
    : HostSide m' commands calls words w := by
  obtain ⟨d, dramReadWordQ, dramReadWordQ2, first, added, -, rfl⟩ := relayDRAMRead_spec fires
  obtain ⟨whole, reqs, marks, named, underWay, last, sent, stored, ended, done⟩ := side
  refine ⟨whole, reqs, marks, named, underWay, last, sent, ?_, ended, done⟩
  rw [← stored, first, added, List.append_assoc m.dramReadWordQ2.items, List.singleton_append]
  rfl

/-- The burst reader returns a word. -/
theorem HostSide.relayDRAMWord {d : BitVec 512} (side : HostSide m commands calls words w)
    (fires : m.relayDRAMWord d = some m')
    : HostSide m' commands calls (words ++ [d]) w := by
  obtain ⟨-, dramReadWordQ, added, rfl⟩ := relayDRAMWord_spec fires
  obtain ⟨whole, reqs, marks, named, underWay, last, sent, stored, ended, done⟩ := side
  refine ⟨whole, reqs, marks, named, underWay, last, sent, ?_, ended, done⟩
  have more (items : List (BitVec 512))
      : (items ++ [d]).flatMap splitWord = items.flatMap splitWord ++ splitWord d := by simp
  rw [added, more words, ← stored, ← List.append_assoc m.dramReadWordQ2.items, more,
    ← List.append_assoc]
  rfl

/-- A write is requested: its burst is under way. -/
theorem HostSide.sendPcieDmaWrite {made : List HostDmaCall}
    (side : HostSide m commands calls words w)
    (fires : m.sendPcieDmaWrite = some (m', made))
    : ∃ w', HostSide m' commands (calls ++ pcieCalls made) words w' := by
  obtain ⟨idle, off, count, pcieWriteReqQ, writeTag, dmaWriteFreeTagQ, isLast, dramReadBurstDoneQ,
    first, -, marked, -, rfl, rfl⟩ := sendPcieDmaWrite_spec fires
  obtain ⟨ended, cur, pending⟩ := w
  obtain ⟨whole, reqs, marks, named, underWay, -, sent, stored, before, done⟩ := side
  simp only at reqs marks named underWay sent before done
  rw [idle] at sent underWay
  obtain rfl : cur = [] := List.eq_nil_of_length_eq_zero underWay
  rw [List.append_nil] at sent
  cases pending with
  | nil =>
      rw [first] at reqs
      cases reqs
  | cons burst later =>
      rw [first] at reqs
      rw [marked] at marks
      obtain ⟨isFirst, laterReqs⟩ := List.cons.inj reqs
      obtain ⟨rfl, rfl⟩ := Prod.mk.inj isFirst
      obtain ⟨rfl, laterMarks⟩ := List.cons.inj marks
      have same : hostStores (calls ++ [.dmaWriteReq burst.1 8 writeTag]) = hostStores calls :=
        hostStores_request ..
      refine ⟨⟨ended, [burst], later⟩, whole, laterReqs, laterMarks, ?_, rfl, ?_,
        sent.request burst writeTag, ?_, ?_, done⟩
      · rw [← named]
        simp
      · intro other member
        obtain rfl := List.mem_singleton.mp member
        rfl
      · change (hostStores (calls ++ [.dmaWriteReq burst.1 8 writeTag])).map Prod.snd ++ _ ++ _ = _
        rw [same]
        exact stored
      · change _ <+: (hostStores (calls ++ [.dmaWriteReq burst.1 8 writeTag])).map Prod.fst
        rw [same]
        exact before

/-- `splitDRAMWord` sends the next of the words read from DRAM. -/
theorem HostSide.sendsNext {made : List HostDmaCall} (side : HostSide m commands calls words w)
    (fires : m.splitDRAMWord = some (m', made))
    : 0 < m.dmaCurWriteLeft
      ∧ ∃ word dmaWriteFreeTagQ pcieDmaWriteDoneQ dramReadWordQ2 dramReadWordCntDn buffer,
          made = [.pcie (.dmaWriteData word m.dmaWriteCurTag)]
          ∧ pcieDmaWriteDoneQ.items
            = m.pcieDmaWriteDoneQ.items
              ++ (if m.dmaCurWriteLeft = 1 ∧ m.dmaCurWriteLast = true then [true] else [])
          ∧ m' = { m with
              dmaCurWriteLeft := m.dmaCurWriteLeft - 1
              dmaWriteDRAMWordBufferOffset := m.dmaWriteDRAMWordBufferOffset + 1
              dmaWriteFreeTagQ
              pcieDmaWriteDoneQ
              dramReadWordQ2
              dramReadWordCntDn
              dmaWriteDRAMWordBuffer := buffer }
          ∧ (hostStores calls).map Prod.snd ++ [word] ++ m'.heldWords
              ++ (m'.dramReadWordQ2.items ++ m'.dramReadWordQ.items).flatMap splitWord
            = words.flatMap splitWord := by
  have stored := side.stored
  obtain ⟨more, dmaWriteFreeTagQ, pcieDmaWriteDoneQ, reported, done⟩ := splitDRAMWord_spec fires
  rcases done with ⟨fresh, d, dramReadWordQ2, first, rfl, rfl⟩ | ⟨kept, rfl, rfl⟩
  case inl =>
    refine ⟨more, d.setWidth 128, dmaWriteFreeTagQ, pcieDmaWriteDoneQ, dramReadWordQ2, _, _, rfl,
      reported, rfl, ?_⟩
    rw [heldWords, fresh, first, List.cons_append, List.flatMap_cons, splitWord_eq d] at stored
    rw [← stored, heldWords, fresh]
    simp
  case inr =>
    refine ⟨more, m.dmaWriteDRAMWordBuffer.setWidth 128, dmaWriteFreeTagQ, pcieDmaWriteDoneQ,
      m.dramReadWordQ2, _, _, rfl, reported, rfl, ?_⟩
    rw [heldWords_cons kept] at stored
    rw [← stored, heldWords]
    simp

/-- A word is stored; with the last word of a burst, the burst is over. -/
theorem HostSide.splitDRAMWord {made : List HostDmaCall}
    (side : HostSide m commands calls words w) (fires : m.splitDRAMWord = some (m', made))
    : ∃ w', HostSide m' commands (calls ++ pcieCalls made) words w' := by
  obtain ⟨more, word, _, pcieDmaWriteDoneQ, _, _, _, rfl, reported, rfl, next⟩ :=
    side.sendsNext fires
  obtain ⟨ended, cur, pending⟩ := w
  obtain ⟨whole, reqs, marks, named, underWay, last, sent, -, before, done⟩ := side
  simp only at reqs marks named underWay last sent before done
  change ∃ w', HostSide _ commands (calls ++ [.dmaWriteData word m.dmaWriteCurTag]) words w'
  have left : m.dmaCurWriteLeft.toNat = (m.dmaCurWriteLeft - 1).toNat + 1 := by bv_omega
  rw [left] at sent underWay
  have sent := sent.word word
  have grown := hostStores_word calls m.dmaWriteCurTag word
  obtain ⟨burst, rfl⟩ : ∃ burst, cur = [burst] := by
    refine List.length_eq_one_iff.mp ?_
    rw [underWay]
    omega
  have isMarked := last burst (List.mem_singleton_self burst)
  have stored
      : (hostStores (calls ++ [.dmaWriteData word m.dmaWriteCurTag])).map Prod.snd
        = (hostStores calls).map Prod.snd ++ [word] := by
    rw [grown, List.map_append]
    rfl
  rw [← stored] at next
  by_cases isLast : m.dmaCurWriteLeft = 1
  case pos =>
    rw [isLast] at sent
    refine ⟨⟨ended ++ [burst], [], pending⟩, whole, reqs, marks, ?_, ?_, nofun, ?_, next, ?_, ?_⟩
    · rw [← named, List.append_nil]
    · rw [isLast]
      rfl
    · rw [isLast, List.append_nil]
      exact sent
    · rw [sent.complete]
    · change m.dramReadBurstDoneCount.toNat + pcieDmaWriteDoneQ.items.length
        ≤ (ended ++ [burst]).countP Prod.snd
      rw [reported, List.length_append, List.countP_append]
      cases ends : m.dmaCurWriteLast with
      | true =>
          rw [ends] at isMarked
          simp only [isLast, and_self, if_true, List.length_singleton, List.countP_singleton,
            isMarked]
          omega
      | false =>
          simp only [isLast, Bool.false_eq_true, and_false, if_false, List.length_nil]
          omega
  case neg =>
    rw [if_neg (fun both => isLast both.1), List.append_nil] at reported
    have some : 0 < (m.dmaCurWriteLeft - 1).toNat := by bv_omega
    refine ⟨⟨ended, [burst], pending⟩, whole, reqs, marks, named, ?_, last, sent, next, ?_, ?_⟩
    · change 1 = min 1 (m.dmaCurWriteLeft - 1).toNat
      omega
    · rw [grown, List.map_append]
      exact before.trans (List.prefix_append _ _)
    · change _ + pcieDmaWriteDoneQ.items.length ≤ ended.countP Prod.snd
      rw [reported]
      exact done

/-- A command whose last word is stored is counted. -/
theorem HostSide.accDRAMBurstRDone (side : HostSide m commands calls words w)
    (fires : m.accDRAMBurstRDone = some m')
    : HostSide m' commands calls words w := by
  obtain ⟨reported, pcieDmaWriteDoneQ, first, rfl⟩ := accDRAMBurstRDone_spec fires
  obtain ⟨whole, reqs, marks, named, underWay, last, sent, stored, ended, done⟩ := side
  refine ⟨whole, reqs, marks, named, underWay, last, sent, stored, ended, ?_⟩
  change (m.dramReadBurstDoneCount + 1).toNat + pcieDmaWriteDoneQ.items.length ≤ _
  rw [first, List.length_cons] at done
  have count : (m.dramReadBurstDoneCount + 1).toNat ≤ m.dramReadBurstDoneCount.toNat + 1 := by
    rw [BitVec.toNat_add]
    exact Nat.mod_le _ _
  omega

/-- A command of the host is queued. -/
theorem HostSide.getCmd {word : IOWrite} (side : HostSide m commands calls words w)
    (fires : m.getCmd word = some m')
    : HostSide m' (commands ++ m.commanded word) calls words w := by
  obtain ⟨_, _, dmaCmdQ, _, rfl, queued⟩ := getCmd_spec fires
  obtain ⟨whole, reqs, marks, named, underWay, last, sent, stored, ended, done⟩ := side
  refine ⟨whole, reqs, marks, ?_, underWay, last, sent, stored, ended, done⟩
  rw [toHost_append, List.flatMap_append, ← named, queued, toHost_append, List.flatMap_append,
    ← List.append_assoc]
  rfl

/-- The next command is taken up: if it is to the host, its bursts are left. -/
theorem HostSide.procCmd (side : HostSide m commands calls words w)
    (sized : ∀ c ∈ m.dmaCmdQ.items, DmaCmd.Sized c) (fires : m.procCmd = some m')
    : HostSide m' commands calls words w := by
  obtain ⟨-, noWrite, write, hostpage, fpgapage, pages, dmaCmdQ, first, taken⟩ := procCmd_spec fires
  have size := sized (write, hostpage, fpgapage, pages) (by simp [first])
  obtain ⟨whole, reqs, marks, named, underWay, last, sent, stored, ended, done⟩ := side
  have none : pageBursts m.hostMemOff (m.memWriteLeft.toNat / 128) = [] := by
    rw [noWrite]
    rfl
  rw [none, List.append_nil, first] at named
  rcases taken with ⟨rfl, dramReadWordCntQ, -, rfl⟩ | ⟨rfl, dmaReadWordCntQ, -, rfl⟩
  case inl =>
    have bytes : (pages <<< 12).toNat = 4096 * pages.toNat := size.bytes
    have bursts : 4096 * pages.toNat / 128 = 32 * pages.toNat := by omega
    refine ⟨?_, reqs, marks, ?_, underWay, last, sent, stored, ended, done⟩
    · change (pages <<< 12).toNat % 128 = 0
      omega
    · change _ ++ pageBursts (hostpage <<< 12) ((pages <<< 12).toNat / 128) ++ _ = _
      rw [bytes, bursts, ← named, toHost_cons_toHost rfl, List.flatMap_cons, ← List.append_assoc]
      rfl
  case inr =>
    refine ⟨whole, reqs, marks, ?_, underWay, last, sent, stored, ended, done⟩
    change _ ++ pageBursts (hostpage <<< 12) (m.memWriteLeft.toNat / 128) ++ _ = _
    rw [← named, toHost_cons_fromHost rfl, noWrite]
    exact congrArg (· ++ _) (List.append_nil _)

-----------------------------------------------------------------------------------------
-- Runs
-----------------------------------------------------------------------------------------

variable {s s' : DRAMHostDMA × P.State × R.State} {log : DramReadLog}

/-- The words that the burst reader has returned for host commands. -/
def hostWordsTaken (log : DramReadLog) : List (BitVec 512) := log.hostTaken.map Prod.snd

/-- A rule of the module, without the chained interface. -/
theorem HostSide.fire {rule : DRAMHostDMARule} {made : List HostDmaCall}
    (side : HostSide s.1 commands calls (hostWordsTaken log) w) (unchained : s.1.Unchained)
    (sized : ∀ c ∈ s.1.dmaCmdQ.items, DmaCmd.Sized c)
    (fires : fire P R s rule = some (s', made))
    : ∃ w', HostSide s'.1 commands (calls ++ pcieCalls made)
        (hostWordsTaken (recordReads P R s (.rule rule) log)) w' := by
  have quiet {m : DRAMHostDMA} {w' : HostWork} {words : List (BitVec 512)}
      (kept : HostSide m commands calls words w')
      : ∃ w', HostSide m commands (calls ++ pcieCalls []) words w' :=
    ⟨w', by rwa [show pcieCalls [] = [] from rfl, List.append_nil]⟩
  cases rule with
  | relayChainCmd | relayChainWrite | relayChainRead =>
      have other := (unchained.fire fires).2.2
      simp at other
  | genPcieDmaWrite =>
      obtain ⟨m, fired, ⟨⟩⟩ := plain_eq_some fires
      obtain ⟨w', side⟩ := side.genPcieDmaWrite fired
      exact quiet side
  | relayDRAMRead =>
      obtain ⟨m, fired, ⟨⟩⟩ := plain_eq_some fires
      exact quiet (side.relayDRAMRead fired)
  | relayDRAMWord =>
      obtain ⟨⟨d, r⟩, taken, fires⟩ := Option.bind_eq_some_iff.mp fires
      obtain ⟨m, fired, ⟨⟩⟩ := Option.bind_eq_some_iff.mp fires
      obtain ⟨addr, -, next⟩ := nextWord_eq taken
      have words
          : hostWordsTaken (recordReads P R s (.rule .relayDRAMWord) log)
            = hostWordsTaken log ++ [d] := by
        rw [hostWordsTaken, recordReads, next, List.map_append]
        rfl
      rw [words]
      exact quiet (side.relayDRAMWord fired)
  | sendPcieDmaWrite =>
      obtain ⟨m, made, fired, ⟨⟩⟩ := calling_eq_some fires
      exact side.sendPcieDmaWrite fired
  | splitDRAMWord =>
      obtain ⟨m, made, fired, ⟨⟩⟩ := calling_eq_some fires
      exact side.splitDRAMWord fired
  | accDRAMBurstRDone =>
      obtain ⟨m, fired, ⟨⟩⟩ := plain_eq_some fires
      exact quiet (side.accDRAMBurstRDone fired)
  | procCmd =>
      obtain ⟨m, fired, ⟨⟩⟩ := plain_eq_some fires
      exact quiet (side.procCmd sized fired)
  | sendDMARead =>
      obtain ⟨⟨tag, m⟩, sent, fires⟩ := Option.bind_eq_some_iff.mp fires
      obtain ⟨p, -, ⟨⟩⟩ := Option.bind_eq_some_iff.mp fires
      obtain ⟨-, noWrite, reads, -, rfl⟩ := sendDMARead_spec sent
      exact quiet (side.frame (.inr noWrite) rfl)
  | getDMARead =>
      obtain ⟨⟨⟨tag, word⟩, p⟩, -, fires⟩ := Option.bind_eq_some_iff.mp fires
      obtain ⟨m, taken, ⟨⟩⟩ := Option.bind_eq_some_iff.mp fires
      obtain ⟨reads, -, rfl⟩ := onReads_spec taken
      exact quiet (side.frame (.inl rfl) rfl)
  | initDmaTagR | relayDmaReadWords | startReorderRead | reorderRead =>
      obtain ⟨m, fired, ⟨⟩⟩ := plain_eq_some fires
      obtain ⟨reads, -, rfl⟩ := onReads_spec fired
      exact quiet (side.frame (.inl rfl) rfl)
  | dramStartBurst =>
      obtain ⟨m, made, fired, ⟨⟩⟩ := calling_eq_some fires
      obtain ⟨-, _, _, _, -, rfl, rfl⟩ := dramStartBurst_spec fired
      exact quiet (side.frame (.inl rfl) rfl)
  | relayDRAMWriteBurst =>
      obtain ⟨m, made, fired, ⟨⟩⟩ := calling_eq_some fires
      obtain ⟨-, _, _, _, -, -, ⟨-, rfl, rfl⟩ | ⟨-, rfl, rfl⟩⟩ := relayDRAMWriteBurst_spec fired
      · exact quiet (side.frame (.inl rfl) rfl)
      · exact quiet (side.frame (.inl rfl) rfl)
  | initDmaTagW =>
      obtain ⟨m, fired, ⟨⟩⟩ := plain_eq_some fires
      obtain ⟨-, _, _, -, rfl⟩ := initDmaTagW_spec fired
      exact quiet (side.frame (.inl rfl) rfl)
  | startDRAMRead =>
      obtain ⟨⟨⟨off, count⟩, m⟩, fired, fires⟩ := Option.bind_eq_some_iff.mp fires
      obtain ⟨r, -, ⟨⟩⟩ := Option.bind_eq_some_iff.mp fires
      obtain ⟨-, _, -, rfl⟩ := startDRAMRead_spec fired
      exact quiet (side.frame (.inl rfl) rfl)
  | accDRAMBurstDone =>
      obtain ⟨m, fired, ⟨⟩⟩ := plain_eq_some fires
      obtain ⟨_, _, -, rfl⟩ := accDRAMBurstDone_spec fired
      exact quiet (side.frame (.inl rfl) rfl)

/-- What has got to the host is for the commands from FPGA to host in their order, and the commands
counted are stored.
-/
theorem HostSide.moved (side : HostSide m commands calls words w)
    (sized : ∀ c ∈ commands, DmaCmd.Sized c)
    : hostRequests calls
        <+: ((toHost commands).flatMap DmaCmd.hostBursts).map (fun burst => (burst.1, 8))
      ∧ hostStores calls
        <+: (burstWords ((toHost commands).flatMap DmaCmd.hostBursts)).zip
          (words.flatMap splitWord)
      ∧ m.dramReadBurstDoneCount.toNat ≤ (toHost commands).length
      ∧ burstWords (((toHost commands).take m.dramReadBurstDoneCount.toNat).flatMap
          DmaCmd.hostBursts)
        <+: (hostStores calls).map Prod.fst := by
  obtain ⟨whole, reqs, marks, named, underWay, last, sent, stored, ended, done⟩ := side
  have part : w.ended ++ w.cur <+: (toHost commands).flatMap DmaCmd.hostBursts := by
    rw [← named, List.append_assoc, List.append_assoc]
    exact List.prefix_append _ _
  have marked
      : ∀ c ∈ toHost commands, ∃ earlier last,
          DmaCmd.hostBursts c = earlier ++ [(last, true)]
          ∧ ∀ burst ∈ earlier, burst.2 = false := by
    intro c member
    obtain ⟨some, -⟩ := sized c (List.mem_filter.mp member).1
    obtain ⟨n, count⟩ : ∃ n, 32 * c.pages = n + 1 := ⟨32 * c.pages - 1, by omega⟩
    rw [DmaCmd.hostBursts, count]
    exact pageBursts_last _ n
  obtain ⟨few, complete⟩ :=
    complete_of_marks marked ((List.prefix_append _ _).trans part)
  have count : m.dramReadBurstDoneCount.toNat ≤ w.ended.countP Prod.snd :=
    Nat.le_trans (Nat.le_add_right _ _) done
  refine ⟨?_, prefix_zip ?_ ?_, Nat.le_trans count few, ?_⟩
  · rw [sent.requested]
    exact part.map _
  · exact List.IsPrefix.trans ⟨_, sent.addrs⟩ (burstWords_mono part)
  · rw [← stored, List.append_assoc]
    exact List.prefix_append _ _
  · refine (burstWords_mono (List.IsPrefix.trans ?_ complete)).trans ended
    obtain ⟨more, split⟩ := List.take_prefix_take_left count
    rw [← split, List.flatMap_append]
    exact List.prefix_append _ _

end DRAMHostDMA

end BluespecPcie

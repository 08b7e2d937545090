import BluespecPcie.PcieCtrl.Bursts

/-! The lists of bursts that the two request splitters make of a request. -/

namespace BluespecPcie

open Bluespec

-----------------------------------------------------------------------------------------
-- Lists of bursts
-----------------------------------------------------------------------------------------

/-- A burst that a splitter asks for: where it starts, its words, and the entry of the
configuration buffer that is looked up for it.
-/
structure Chunk where
  startAddr : BitVec 32
  words : BitVec 10
  entry : BitVec 12
deriving DecidableEq

namespace Chunk

/-- The page request of the burst. -/
def request (c : Chunk) (tag : BitVec 8) : DMAReq where
  addr := (c.startAddr.extractLsb 11 0).zeroExtend 32
  words := c.words
  tag := tag

/-- The addresses of the words of the burst. -/
def addrs (c : Chunk) : List (BitVec 32) := wordAddrs c.startAddr c.words.toNat

/-- The 4 KB page in which the burst starts. -/
def page (c : Chunk) : Nat := c.startAddr.toNat / 4096

/-- The burst has 1 to 8 words, all its bytes lie in one page, and the entry looked up for it
is the one of that page.
-/
structure Legal (c : Chunk) : Prop where
  nonempty : 1 ≤ c.words.toNat
  short : c.words.toNat ≤ 8
  inPage : ∀ i < 16 * c.words.toNat, (c.startAddr + BitVec.ofNat 32 i).toNat / 4096 = c.page
  entry : c.entry = BitVec.ofNat 12 (dma_buf_offset / 4 + c.page)

end Chunk

/-- The bursts of a splitter with these registers, if it is done within `fuel` of them. -/
def chunksWithin (split : BitVec 32 → BitVec 10 → Split)
    : Nat → BitVec 32 → BitVec 10 → Option (List Chunk)
  | 0, _, words => if words > 0 then none else some []
  | fuel + 1, startAddr, words =>
      if words > 0 then
        let burst := split startAddr words
        (chunksWithin split fuel burst.startAddr burst.wordsLeft).map
          ({ startAddr, words := burst.words, entry := pageEntry startAddr } :: ·)
      else some []

/-- No request has more bursts than words, and none has more words. -/
def maxChunks : Nat := 1023

/-- The bursts of `splitDmaReadReq` and `splitDmaReadReq2` for a request. -/
def readChunks (addr : BitVec 32) (words : BitVec 10) : Option (List Chunk) :=
  chunksWithin splitRead maxChunks (alignWord addr) words

/-- The bursts of `splitDmaWriteReq` and `splitDmaWriteReq2` for a request. -/
def writeChunks (addr : BitVec 32) (words : BitVec 10) : Option (List Chunk) :=
  chunksWithin splitWrite maxChunks (alignWord addr) words

/-- A splitter that is done is done within one burst more; induction on the bursts. -/
theorem chunksWithin_succ {split : BitVec 32 → BitVec 10 → Split} {fuel : Nat}
    {startAddr : BitVec 32} {words : BitVec 10} {chunks : List Chunk}
    (done : chunksWithin split fuel startAddr words = some chunks)
    : chunksWithin split (fuel + 1) startAddr words = some chunks := by
  induction fuel generalizing startAddr words chunks with
  | zero =>
      unfold chunksWithin at done ⊢
      split at done
      next => cases done
      next idle => rw [if_neg idle, done]
  | succ fuel ih =>
      unfold chunksWithin at done ⊢
      split at done
      next busy =>
        rw [if_pos busy]
        obtain ⟨rest, later, rfl⟩ := Option.map_eq_some_iff.mp done
        exact Option.map_eq_some_iff.mpr ⟨rest, ih later, rfl⟩
      next idle => rw [if_neg idle, done]

/-- The first burst, and those behind it within the same bound. -/
theorem chunksWithin_next {split : BitVec 32 → BitVec 10 → Split} {fuel : Nat}
    {startAddr : BitVec 32} {words : BitVec 10} {chunks : List Chunk}
    (busy : words > 0) (done : chunksWithin split fuel startAddr words = some chunks)
    : ∃ rest,
        chunks = { startAddr, words := (split startAddr words).words,
                   entry := pageEntry startAddr } :: rest
        ∧ chunksWithin split fuel (split startAddr words).startAddr
            (split startAddr words).wordsLeft
          = some rest := by
  cases fuel with
  | zero =>
      rw [chunksWithin, if_pos busy] at done
      cases done
  | succ fuel =>
      rw [chunksWithin, if_pos busy] at done
      obtain ⟨rest, later, rfl⟩ := Option.map_eq_some_iff.mp done
      exact ⟨rest, rfl, chunksWithin_succ later⟩

-----------------------------------------------------------------------------------------
-- The bursts of a request
-----------------------------------------------------------------------------------------

/-- A burst that `Split.Covers` describes is legal. -/
theorem Split.Covers.legal {b : Split} {startAddr : BitVec 32} {words : BitVec 10}
    (covers : b.Covers startAddr words)
    : Chunk.Legal { startAddr, words := b.words, entry := pageEntry startAddr } := by
  obtain ⟨nonempty, short, inPage, -, -, -⟩ := covers
  have bound := startAddr.isLt
  refine ⟨nonempty, short, ?_, ?_⟩
  · intro i inside
    simp only at inside
    simp only [Chunk.page, BitVec.toNat_add, BitVec.toNat_ofNat]
    omega
  · refine BitVec.eq_of_toNat_eq ?_
    simp only [pageEntry, Chunk.page, dma_buf_offset, BitVec.toNat_add, BitVec.toNat_ofNat,
      BitVec.truncate_eq_setWidth, BitVec.toNat_setWidth, BitVec.toNat_ushiftRight,
      Nat.shiftRight_eq_div_pow]
    omega

/-- From an aligned address the splitter is done within as many bursts as words: the bursts
cover the words and are legal. Induction on the bursts.
-/
theorem chunksWithin_splitRead {fuel : Nat} {startAddr : BitVec 32} {words : BitVec 10}
    (aligned : WordAligned startAddr) (enough : words.toNat ≤ fuel)
    : ∃ chunks,
        chunksWithin splitRead fuel startAddr words = some chunks
        ∧ chunks.flatMap Chunk.addrs = wordAddrs startAddr words.toNat
        ∧ ∀ c ∈ chunks, c.Legal := by
  induction fuel generalizing startAddr words with
  | zero =>
      have none : words = 0 := BitVec.eq_of_toNat_eq (Nat.le_zero.mp enough)
      subst none
      exact ⟨[], rfl, rfl, nofun⟩
  | succ fuel ih =>
      by_cases busy : words > 0
      · have covers := splitRead_covers aligned busy
        have fewer : (splitRead startAddr words).wordsLeft.toNat ≤ fuel := by
          have nonempty := covers.nonempty
          have total := covers.total
          omega
        obtain ⟨rest, later, covered, legal⟩ := ih covers.aligned fewer
        refine ⟨_, ?_, ?_, List.forall_mem_cons.mpr ⟨covers.legal, legal⟩⟩
        · rw [chunksWithin, if_pos busy]
          simp only
          rw [later]
          rfl
        · rw [List.flatMap_cons, covered, covers.next, ← covers.total, wordAddrs_add]
          rfl
      · have none : words = 0 := by bv_omega
        subst none
        exact ⟨[], rfl, rfl, nofun⟩

/-- The two splitters cut a request into the same bursts. -/
theorem writeChunks_eq (addr : BitVec 32) (words : BitVec 10)
    : writeChunks addr words = readChunks addr words := by
  have same : splitWrite = splitRead := funext₂ splitWrite_eq
  rw [writeChunks, same, readChunks]

/-- `{truncate(addr>>4), 4'b0000}` clears the low four bits. -/
theorem alignWord_eq_and (addr : BitVec 32) : alignWord addr = addr &&& ~~~15#32 := by
  refine BitVec.eq_of_getLsbD_eq ?_
  intro i inside
  have mask : (15#32).getLsbD i = decide (i < 4) := by
    rw [BitVec.getLsbD_ofNat, show 15 = 2 ^ 4 - 1 from rfl, Nat.testBit_two_pow_sub_one]
    simp [inside]
  have halves : (alignWord addr).getLsbD i
      = if i < 4 then (0#4).getLsbD i else ((addr >>> 4).truncate 28).getLsbD (i - 4) :=
    BitVec.getLsbD_append
  rw [BitVec.getLsbD_and, BitVec.getLsbD_not, mask, halves]
  by_cases below : i < 4
  · simp [below]
  · have within : i - 4 < 28 := by omega
    have back : 4 + (i - 4) = i := by omega
    simp [below, inside, within, back]

/-- Both splitters are done with every request, and make the same bursts of it: they cover its
words from `addr & ~15` on, and each is legal.
-/
theorem splitters_agree (addr : BitVec 32) (words : BitVec 10)
    : ∃ chunks,
        readChunks addr words = some chunks
        ∧ writeChunks addr words = some chunks
        ∧ chunks.flatMap Chunk.addrs = wordAddrs (addr &&& ~~~15#32) words.toNat
        ∧ ∀ c ∈ chunks, c.Legal := by
  have enough : words.toNat ≤ maxChunks := Nat.le_of_lt_succ words.isLt
  obtain ⟨chunks, done, covered, legal⟩ :=
    chunksWithin_splitRead (wordAligned_alignWord addr) enough
  rw [alignWord_eq_and] at covered
  exact ⟨chunks, done, (writeChunks_eq addr words).trans done, covered, legal⟩

-----------------------------------------------------------------------------------------
-- The rules take the bursts one after the other
-----------------------------------------------------------------------------------------

namespace PcieCtrl

/-- The bursts that `splitDmaReadReq2` has left to make. -/
def readChunksLeft (s : PcieCtrl) : Option (List Chunk) :=
  chunksWithin splitRead maxChunks s.reads.dmaReadStartAddr s.reads.dmaReadWords

/-- The bursts that `splitDmaWriteReq2` has left to make. -/
def writeChunksLeft (s : PcieCtrl) : Option (List Chunk) :=
  chunksWithin splitWrite maxChunks s.writes.dmaStartAddr s.writes.dmaSendWords

variable {s s' : PcieCtrl} {chunks : List Chunk}

/-- A read request is taken when no burst is left, and its bursts are next. -/
theorem splitDmaReadReq_chunks (fires : s.splitDmaReadReq = some s')
    : s.readChunksLeft = some []
      ∧ ∃ req,
          s.reads.dmaReadReqQ.items = req :: s'.reads.dmaReadReqQ.items
          ∧ s'.readChunksLeft = readChunks req.addr req.words := by
  unfold splitDmaReadReq at fires
  split at fires
  next idle =>
    obtain ⟨⟨req, reqQ⟩, taken, ⟨⟩⟩ := Option.bind_eq_some_iff.mp fires
    refine ⟨?_, req, Fifo.deq_eq_some.mp taken, rfl⟩
    rw [readChunksLeft, idle]
    rfl
  next => cases fires

/-- Each firing asks for the next burst. -/
theorem splitDmaReadReq2_chunks (fires : s.splitDmaReadReq2 = some s')
    (left : s.readChunksLeft = some chunks)
    : ∃ c rest tag,
        chunks = c :: rest
        ∧ s'.readChunksLeft = some rest
        ∧ s'.reads.dmaPageReadReqQ.items = s.reads.dmaPageReadReqQ.items ++ [c.request tag]
        ∧ s'.pages.configBuffer.respB.items
          = s.pages.configBuffer.respB.items ++ [s.pages.configBuffer.mem c.entry] := by
  obtain ⟨busy, tag, _, _, _, _, _, put, _, resp, rfl⟩ := splitDmaReadReq2_cases fires
  obtain ⟨rest, first, later⟩ := chunksWithin_next busy left
  exact ⟨_, rest, tag, first, later, put, resp⟩

/-- A write request is taken when no burst is left, and its bursts are next. -/
theorem splitDmaWriteReq_chunks (fires : s.splitDmaWriteReq = some s')
    : s.writeChunksLeft = some []
      ∧ ∃ req,
          s.writes.dmaWriteReqQ.items = req :: s'.writes.dmaWriteReqQ.items
          ∧ s'.writeChunksLeft = writeChunks req.addr req.words := by
  obtain ⟨idle, req, _, taken, rfl⟩ := splitDmaWriteReq_cases fires
  refine ⟨?_, req, taken, rfl⟩
  rw [writeChunksLeft, idle]
  rfl

/-- Each firing asks for the next burst. -/
theorem splitDmaWriteReq2_chunks (fires : s.splitDmaWriteReq2 = some s')
    (left : s.writeChunksLeft = some chunks)
    : ∃ c rest tag,
        chunks = c :: rest
        ∧ s'.writeChunksLeft = some rest
        ∧ s'.writes.dmaPageWriteReqQ.items = s.writes.dmaPageWriteReqQ.items ++ [c.request tag]
        ∧ s'.pages.configBuffer.respB.items
          = s.pages.configBuffer.respB.items ++ [s.pages.configBuffer.mem c.entry] := by
  obtain ⟨busy, tag, _, _, _, _, _, _, _, put, _, resp, rfl⟩ := splitDmaWriteReq2_cases fires
  obtain ⟨rest, first, later⟩ := chunksWithin_next busy left
  exact ⟨_, rest, tag, first, later, put, resp⟩

end PcieCtrl

end BluespecPcie

import BluespecPcie.Dma.ReadHelper
import BluespecPcie.Dram.HostDMAReads

/-! When the read tags of `mkDMAReadHelper` and `mkDRAMHostDMA` block themselves: a tag is free
again when its last word arrives, so words of its next chunk can meet a full queue while words that
are needed first are still behind them.
-/

namespace BluespecPcie

open Bluespec

/-- A waiting word leaves the drain position with a word, in both modules, in runs whose words fit
when they arrive.
-/
theorem reads_drain_when_full (mem : BitVec 32 → DMAWord) (P : TaggedReads mem)
    : (∀ s : DMAReadHelper × P.State,
        Reach (DMAReadHelper.step P) (DMAReadHelper.WordsFit P) (mkDMAReadHelper, P.init) s
        → s.1.reads.DrainsWhenFull)
      ∧ (∀ (R : BurstReader) (s : DRAMHostDMA × P.State × R.State),
          Reach (DRAMHostDMA.step P R) (DRAMHostDMA.WordsFit P R)
            (mkDRAMHostDMA, P.init, R.init) s
          → s.1.reads.DrainsWhenFull) :=
  ⟨fun _ run => (DMAReadHelper.reads_flow run).drainsWhenFull,
    fun _ _ run => (DRAMHostDMA.reads_flow run).drainsWhenFull⟩

-----------------------------------------------------------------------------------------
-- Two schedules of mkDMAReadHelper
-----------------------------------------------------------------------------------------

namespace DMAReadHelper

open TaggedReads (addressed)

/-- Nine chunks are asked for, and the eight tags are given to the first eight. -/
def eightChunks : List (DMAReadHelperEvent (BitVec 8)) :=
  [.readReq 0 1152]
    ++ List.replicate 8 (.rule .initDmaTagR)
    ++ [.rule .dmaReadCmd]
    ++ List.replicate 8 (.rule .sendDMARead)

/-- A word arrives and goes to the queue of its tag. -/
def wordParked : List (DMAReadHelperEvent (BitVec 8)) :=
  [.rule .getDMARead, .rule .relayDmaReadWords]

/-- All words of the first chunk arrive, the first of them is taken out, and the ninth chunk has
tag 0 again. Its second word finds a full queue of words that are due.
-/
def waitsForDraining : List (DMAReadHelperEvent (BitVec 8)) :=
  eightChunks ++ (List.replicate 8 wordParked).flatten
    ++ [.rule .startReorderRead, .rule .sendDMARead] ++ wordParked ++ [.rule .getDMARead]

/-- All words of the second chunk arrive, then one of the first, which is taken out. The ninth
chunk has tag 1 again, and its first word finds a full queue, while the word that is due has not
arrived.
-/
def blocksItself : List (DMAReadHelperEvent (BitVec 8)) :=
  eightChunks ++ [.pcie 1] ++ (List.replicate 8 wordParked).flatten
    ++ [.pcie 0] ++ wordParked ++ [.rule .startReorderRead, .rule .sendDMARead, .pcie 1,
      .rule .getDMARead]

/-- The tags at the drain position and before the queues, and how many words those tags have. -/
def fillLevels (s : DMAReadHelper × (TaggedReads.anyOrder addressed).State)
    : Option (BitVec 8 × Nat) × Option (BitVec 8 × Nat) :=
  (s.1.reads.drainTag.map (fun tag => (tag, s.1.reads.held tag)),
    s.1.reads.dmaReadWordsQ.first.map (fun d => (d.1, s.1.reads.held d.1)))

end DMAReadHelper

open DMAReadHelper TaggedReads in
/-- A run in which a word has to wait, and the words before it can be taken out. -/
theorem reads_drain_when_full_waits
    : ∃ s : DMAReadHelper × (TaggedReads.anyOrder addressed).State,
        fillLevels s = (some (0, 8), some (0, 8)) ∧ s.1.reads.DrainsWhenFull := by
  obtain ⟨s, run, seen⟩ := exec_reach_map (step (.anyOrder addressed))
    (WordsFit (.anyOrder addressed)) (mkDMAReadHelper, (TaggedReads.anyOrder addressed).init)
    waitsForDraining fillLevels (some (0, 8), some (0, 8)) (by decide +kernel)
  exact ⟨s, seen, (reads_drain_when_full addressed (.anyOrder addressed)).1 s run⟩

open DMAReadHelper TaggedReads in
/-- A run in which the word that is due can no longer come. -/
theorem reads_block_themselves
    : ¬ ∀ (mem : BitVec 32 → DMAWord) (P : TaggedReads mem) (s : DMAReadHelper × P.State),
        Reach (step P) anyEvent (mkDMAReadHelper, P.init) s → s.1.reads.DrainsWhenFull := by
  intro always
  obtain ⟨s, run, seen⟩ := exec_reach_map (step (.anyOrder addressed)) anyEvent
    (mkDMAReadHelper, (TaggedReads.anyOrder addressed).init) blocksItself fillLevels
    (some (0, 0), some (1, 8)) (by decide +kernel)
  obtain ⟨drains, waits⟩ := Prod.mk.inj seen
  obtain ⟨tag, due, empty⟩ := Option.map_eq_some_iff.mp drains
  obtain ⟨d, first, full⟩ := Option.map_eq_some_iff.mp waits
  obtain ⟨rfl, none⟩ := Prod.mk.inj empty
  obtain ⟨one, eight⟩ := Prod.mk.inj full
  obtain ⟨_, position, some⟩ := always addressed (.anyOrder addressed) s run
    ⟨d, first, eight⟩
  rw [due] at position
  cases position
  exact some (List.eq_nil_of_length_eq_zero none)

end BluespecPcie

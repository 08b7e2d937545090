import BluespecPcie.Bluespec.Machine
import BluespecPcie.Dma.ReadLanes

/-! `mkDMAReadHelper` of DMAReadHelper.bsv: host buffers read as one stream of words. -/

namespace BluespecPcie

open Bluespec

-----------------------------------------------------------------------------------------
-- The module
-----------------------------------------------------------------------------------------

structure DMAReadHelper where
  readCmdQ : Fifo (BitVec 32 × BitVec 32) 4
  dmaReadHostOff : BitVec 32
  dmaReadLeftBytes : BitVec 32
  /-- The registers of the read tags; `dmaReadTagCount` is 8 and `curReadTag` has 3 bits. -/
  reads : ReadReorder 8 3

/-- The module after reset. -/
def mkDMAReadHelper : DMAReadHelper where
  readCmdQ := .empty
  dmaReadHostOff := 0
  dmaReadLeftBytes := 0
  reads := .init

inductive DMAReadHelperRule where
  | initDmaTagR
  | sendDMARead
  | getDMARead
  | relayDmaReadWords
  | startReorderRead
  | reorderRead
  | dmaReadCmd
deriving DecidableEq

/-- What can happen: a rule, a step of the interface among `χ`, or a call of a method. -/
inductive DMAReadHelperEvent (χ : Type) where
  | rule (rule : DMAReadHelperRule)
  | pcie (choice : χ)
  | readReq (offset bytes : BitVec 32)
  | read

namespace DMAReadHelper

variable {mem : BitVec 32 → DMAWord}

/-- The words of the next chunk: 8, or the whole words of what is left. -/
def chunkWords (m : DMAReadHelper) : BitVec 8 :=
  if 128 ≤ m.dmaReadLeftBytes then 128 >>> 4 else (m.dmaReadLeftBytes >>> 4).setWidth 8

/-- `sendDMARead`, with the tag of the request that it makes at `dmaReadHostOff`. -/
def sendDMARead (m : DMAReadHelper) : Option (BitVec 8 × DMAReadHelper) :=
  if m.reads.dmaReadTagInitDone = true ∧ 0 < m.dmaReadLeftBytes then do
    let (freeTag, reads) ← m.reads.sendChunk m.chunkWords
    return (freeTag, { m with
      reads
      dmaReadLeftBytes := if 128 ≤ m.dmaReadLeftBytes then m.dmaReadLeftBytes - 128 else 0
      dmaReadHostOff :=
        if 128 ≤ m.dmaReadLeftBytes then m.dmaReadHostOff + 128 else m.dmaReadHostOff })
  else none

def dmaReadCmd (m : DMAReadHelper) : Option DMAReadHelper :=
  if m.dmaReadLeftBytes = 0 then do
    let ((offset, bytes), readCmdQ) ← m.readCmdQ.deq
    return { m with readCmdQ, dmaReadLeftBytes := bytes, dmaReadHostOff := offset }
  else none

def readReq (m : DMAReadHelper) (offset bytes : BitVec 32) : Option DMAReadHelper := do
  let readCmdQ ← m.readCmdQ.enq (offset, bytes)
  return { m with readCmdQ }

def read (m : DMAReadHelper) : Option (DMAWord × DMAReadHelper) := do
  let (word, reads) ← m.reads.takeWord
  return (word, { m with reads })

/-- A rule of the read tags alone. -/
def onReads (m : DMAReadHelper) (reads : Option (ReadReorder 8 3)) : Option DMAReadHelper :=
  reads.map ({ m with reads := · })

/-- A rule of the module over the interface `P`. -/
def fire (P : TaggedReads mem) (s : DMAReadHelper × P.State)
    : DMAReadHelperRule → Option (DMAReadHelper × P.State)
  | .initDmaTagR => (s.1.onReads s.1.reads.initDmaTagR).map (·, s.2)
  | .sendDMARead => do
      let (tag, m) ← s.1.sendDMARead
      let p ← P.dmaReadReq s.2 s.1.dmaReadHostOff (s.1.chunkWords.setWidth 10) tag
      return (m, p)
  | .getDMARead => do
      let ((tag, word), p) ← P.dmaReadWord s.2
      let m ← s.1.onReads (s.1.reads.getDMARead tag word)
      return (m, p)
  | .relayDmaReadWords => (s.1.onReads s.1.reads.relayDmaReadWords).map (·, s.2)
  | .startReorderRead => (s.1.onReads s.1.reads.startReorderRead).map (·, s.2)
  | .reorderRead => (s.1.onReads s.1.reads.reorderRead).map (·, s.2)
  | .dmaReadCmd => s.1.dmaReadCmd.map (·, s.2)

/-- One event of the module over the interface `P`. -/
def step (P : TaggedReads mem) (s : DMAReadHelper × P.State)
    : DMAReadHelperEvent P.Choice → Option (DMAReadHelper × P.State)
  | .rule rule => fire P s rule
  | .pcie choice => (P.internal s.2 choice).map (s.1, ·)
  | .readReq offset bytes => (s.1.readReq offset bytes).map (·, s.2)
  | .read => s.1.read.map (fun taken => (taken.2, s.2))

/-- The tag of the word that an event takes from the interface. -/
def arriving (P : TaggedReads mem) (s : DMAReadHelper × P.State)
    : DMAReadHelperEvent P.Choice → Option (BitVec 8)
  | .rule .getDMARead => (P.dmaReadWord s.2).map (fun d => d.1.1)
  | _ => none

/-- A word is taken from the interface only when the queue of its tag has room for it, now or once
words that have arrived are taken out.
-/
def WordsFit (P : TaggedReads mem) (s : DMAReadHelper × P.State)
    (e : DMAReadHelperEvent P.Choice) : Prop :=
  ∀ tag ∈ arriving P s e, s.1.reads.WordFits tag

instance (P : TaggedReads mem) (s : DMAReadHelper × P.State) (e : DMAReadHelperEvent P.Choice)
    : Decidable (WordsFit P s e) := by
  unfold WordsFit
  infer_instance

-----------------------------------------------------------------------------------------
-- The read tags in a run
-----------------------------------------------------------------------------------------

variable {P : TaggedReads mem} {s s' : DMAReadHelper × P.State}

/-- A rule of the read tags alone moves nothing else. -/
theorem onReads_eq_some {m m' : DMAReadHelper} {reads : Option (ReadReorder 8 3)}
    (fires : m.onReads reads = some m')
    : ∃ next, reads = some next ∧ m' = { m with reads := next } := by
  obtain ⟨next, fired, rfl⟩ := Option.map_eq_some_iff.mp fires
  exact ⟨next, fired, rfl⟩

/-- A chunk is sent with the words and the place that are next. -/
theorem sendDMARead_spec {m m' : DMAReadHelper} {tag : BitVec 8}
    (fires : m.sendDMARead = some (tag, m'))
    : 0 < m.dmaReadLeftBytes
      ∧ ∃ reads,
          m.reads.sendChunk m.chunkWords = some (tag, reads)
          ∧ m' = { m with
              reads
              dmaReadLeftBytes :=
                if 128 ≤ m.dmaReadLeftBytes then m.dmaReadLeftBytes - 128 else 0
              dmaReadHostOff :=
                if 128 ≤ m.dmaReadLeftBytes then m.dmaReadHostOff + 128
                else m.dmaReadHostOff } := by
  unfold sendDMARead at fires
  split at fires
  next ready =>
    obtain ⟨⟨freeTag, reads⟩, sent, ⟨⟩⟩ := Option.bind_eq_some_iff.mp fires
    exact ⟨ready.2, reads, sent, rfl⟩
  next => cases fires

/-- An event takes the read tags one step on, if at all. -/
theorem reads_step {e : DMAReadHelperEvent P.Choice} (fires : step P s e = some s')
    : ReadReorder.Step (arriving P s e) s.1.reads s'.1.reads := by
  cases e with
  | rule rule =>
      cases rule with
      | sendDMARead =>
          obtain ⟨⟨tag, m⟩, sent, fires⟩ := Option.bind_eq_some_iff.mp fires
          obtain ⟨p, -, ⟨⟩⟩ := Option.bind_eq_some_iff.mp fires
          obtain ⟨-, reads, chunk, rfl⟩ := sendDMARead_spec sent
          exact .sendChunk chunk
      | getDMARead =>
          obtain ⟨⟨⟨tag, word⟩, p⟩, returned, fires⟩ := Option.bind_eq_some_iff.mp fires
          obtain ⟨m, taken, ⟨⟩⟩ := Option.bind_eq_some_iff.mp fires
          obtain ⟨reads, fired, rfl⟩ := onReads_eq_some taken
          exact .getDMARead (by rw [arriving, returned]; rfl) fired
      | dmaReadCmd =>
          obtain ⟨m, fired, rfl⟩ := Option.map_eq_some_iff.mp fires
          unfold dmaReadCmd at fired
          split at fired
          next =>
            obtain ⟨⟨_, _⟩, -, ⟨⟩⟩ := Option.bind_eq_some_iff.mp fired
            exact .same rfl
          next => cases fired
      | initDmaTagR =>
          obtain ⟨m, fired, rfl⟩ := Option.map_eq_some_iff.mp fires
          obtain ⟨reads, moved, rfl⟩ := onReads_eq_some fired
          exact .initDmaTagR moved
      | relayDmaReadWords =>
          obtain ⟨m, fired, rfl⟩ := Option.map_eq_some_iff.mp fires
          obtain ⟨reads, moved, rfl⟩ := onReads_eq_some fired
          exact .relayDmaReadWords moved
      | startReorderRead =>
          obtain ⟨m, fired, rfl⟩ := Option.map_eq_some_iff.mp fires
          obtain ⟨reads, moved, rfl⟩ := onReads_eq_some fired
          exact .startReorderRead moved
      | reorderRead =>
          obtain ⟨m, fired, rfl⟩ := Option.map_eq_some_iff.mp fires
          obtain ⟨reads, moved, rfl⟩ := onReads_eq_some fired
          exact .reorderRead moved
  | pcie choice =>
      obtain ⟨p, -, rfl⟩ := Option.map_eq_some_iff.mp fires
      exact .same rfl
  | readReq offset bytes =>
      obtain ⟨m, fired, rfl⟩ := Option.map_eq_some_iff.mp fires
      obtain ⟨_, -, ⟨⟩⟩ := Option.bind_eq_some_iff.mp fired
      exact .same rfl
  | read =>
      obtain ⟨⟨word, m⟩, fired, rfl⟩ := Option.map_eq_some_iff.mp fires
      obtain ⟨⟨_, reads⟩, taken, ⟨⟩⟩ := Option.bind_eq_some_iff.mp fired
      exact .takeWord taken

/-- Words that wait have room once the words before them are in their queues. -/
theorem reads_flow (run : Reach (step P) (WordsFit P) (mkDMAReadHelper, P.init) s)
    : s.1.reads.Flows := by
  have both
      : s.1.reads.InRange ∧ s.1.reads.Flows :=
    run.invariant (P := fun state => state.1.reads.InRange ∧ state.1.reads.Flows) ⟨.init, .init⟩
      (fun kept fits fires => ⟨(reads_step fires).inRange (by decide) kept.1,
        (reads_step fires).flows (by decide) kept.1 fits kept.2⟩)
  exact both.2

end DMAReadHelper

end BluespecPcie

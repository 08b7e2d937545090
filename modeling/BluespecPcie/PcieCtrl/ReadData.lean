import BluespecPcie.PcieCtrl.ReadRequests
import BluespecPcie.PcieCtrl.ReorderWords

/-! DMA reads return the words of host memory that were requested, in the order of the requests. -/

namespace BluespecPcie

open Bluespec

-----------------------------------------------------------------------------------------
-- History and the host
-----------------------------------------------------------------------------------------

/-- The requests and their memory reads, the words of completions, and the words that go to the
user.
-/
structure ReadDataLog where
  reads : DmaReadLog
  words : WordLog
  flush : FlushLog

namespace ReadDataLog

/-- Nothing has happened. -/
def start : ReadDataLog := ⟨.start, {}, {}⟩

def record (s : PcieCtrl) (e : Event) (log : ReadDataLog) : ReadDataLog where
  reads := log.reads.record s e
  words := log.words.record s e
  flush := log.flush.record s e

/-- The memory reads sent to the host. -/
def memoryReads (log : ReadDataLog) : List MemoryRead :=
  (cutTLPs [] log.reads.transmit.sent).filterMap memoryRead

/-- The bytes that the memory reads sent with a tag ask for, in the order sent. -/
def askedBytes (mem : HostMemory) (tag : BitVec 8) (log : ReadDataLog) : List (BitVec 8) :=
  (log.memoryReads.filter (fun r => r.tag = tag)).flatMap
    (fun r => loadBytes mem r.addr (4 * r.dws))

/-- The payload bytes of completions with a tag. -/
def payloadOf (tag : BitVec 8) (payload : List (BitVec 8 × BitVec 32)) : List (BitVec 8) :=
  (withLabel tag payload).flatMap payloadBytes

/-- The words of host memory that are requested, in order. -/
def askedWords (pt : BitVec 32 → BitVec 32) (mem : HostMemory) (log : ReadDataLog)
    : List DMAWord :=
  (targets pt log.reads.requests).map (loadWord mem)

end ReadDataLog

/-- The host returns with each tag the bytes that the memory reads sent with it ask for, in address
order and read by read, in completions of whole words and no more than asked for.
-/
def HostServes (mem : HostMemory) (state : PcieCtrl × ReadDataLog) (e : Event) : Prop :=
  (e = .filterStatReadTLP →
    ∀ completion ∈ state.1.completionTaken,
      0 < completion.2 ∧ completion.2 % 4 = 0
      ∧ 4 * (state.2.reads.tags.returnedDWs completion.1 + completion.2)
        ≤ (state.2.askedBytes mem completion.1).length)
  ∧ ∀ dw ∈ state.1.payloadTaken e,
      ReadDataLog.payloadOf dw.1 (state.2.words.payload ++ state.1.payloadTaken e)
        <+: state.2.askedBytes mem dw.1

instance (mem : HostMemory) (state : PcieCtrl × ReadDataLog) (e : Event)
    : Decidable (HostServes mem state e) :=
  @instDecidableAnd _ _ (@instDecidableForall _ _ _ (Option.decidableForallMem _))
    (List.decidableBAll _ _)

/-- Reads look up mapped pages, the host serves them, and a tag that is used again is not served
before its flush is over.
-/
def ReadServed (pt : BitVec 32 → BitVec 32) (mem : HostMemory) (state : PcieCtrl × ReadDataLog)
    (e : Event) : Prop :=
  ReadsMapped pt state.1 e ∧ HostServes mem state e ∧ FlushedBefore state.1 e

instance (pt : BitVec 32 → BitVec 32) (mem : HostMemory) (state : PcieCtrl × ReadDataLog)
    (e : Event) : Decidable (ReadServed pt mem state e) :=
  inferInstanceAs (Decidable (_ ∧ _ ∧ _))

-----------------------------------------------------------------------------------------
-- Words asked for
-----------------------------------------------------------------------------------------

/-- The words that memory reads ask for, each with the tag of its read. -/
def taggedReadWords (mem : HostMemory) (reads : List MemoryRead) : List (BitVec 8 × DMAWord) :=
  (reads.map (fun r => (r.tag, r))).flatMap
    (fun r => (r.2.targets.map (loadWord mem)).map (fun word => (r.1, word)))

/-- The words asked for with a tag. -/
theorem withLabel_taggedReadWords (mem : HostMemory) (tag : BitVec 8) (reads : List MemoryRead)
    : withLabel tag (taggedReadWords mem reads)
      = (reads.filter (fun r => r.tag = tag)).flatMap (fun r => r.targets.map (loadWord mem)) := by
  have kept : withLabel tag (reads.map (fun r => (r.tag, r)))
      = reads.filter (fun r => r.tag = tag) := by
    rw [withLabel, List.filter_map, List.map_map]
    exact List.map_id _
  rw [taggedReadWords, withLabel_pieces (fun r : MemoryRead => r.targets.map (loadWord mem)), kept]

/-- The words of memory reads are those of their bursts, with the words at their addresses;
induction on the reads.
-/
theorem taggedReadWords_eq (mem : HostMemory) (reads : List MemoryRead)
    : taggedReadWords mem reads
      = (runLabels wholeWords (reads.map MemoryRead.burst)).zip
          ((reads.flatMap MemoryRead.targets).map (loadWord mem)) := by
  induction reads with
  | nil => rfl
  | cons r reads ih =>
      have first : taggedReadWords mem (r :: reads)
          = (r.targets.map (loadWord mem)).map (fun word => (r.tag, word))
            ++ taggedReadWords mem reads :=
        rfl
      have labels : runLabels wholeWords ((r :: reads).map MemoryRead.burst)
          = List.replicate (wholeWords r.dws) r.tag
            ++ runLabels wholeWords (reads.map MemoryRead.burst) := rfl
      have lengths : (List.replicate (wholeWords r.dws) r.tag).length
          = (r.targets.map (loadWord mem)).length := by
        rw [List.length_replicate, List.length_map, MemoryRead.targets, length_wordAddrs,
          wholeWords]
      have one : (List.replicate (wholeWords r.dws) r.tag).zip (r.targets.map (loadWord mem))
          = (r.targets.map (loadWord mem)).map (fun word => (r.tag, word)) := by
        rw [List.length_replicate] at lengths
        rw [lengths]
        generalize r.targets.map (loadWord mem) = words
        induction words with
        | nil => rfl
        | cons word words rest =>
            rw [List.length_cons, List.replicate_succ, List.zip_cons_cons, rest, List.map_cons]
      rw [first, ih, labels, List.flatMap_cons, List.map_append, List.zip_append lengths, one]

/-- As many words as targets. -/
theorem length_readLabels (reads : List MemoryRead)
    : (runLabels wholeWords (reads.map MemoryRead.burst)).length
      = (reads.flatMap MemoryRead.targets).length := by
  induction reads with
  | nil => rfl
  | cons r reads ih =>
      rw [List.flatMap_cons, List.length_append, ← ih, MemoryRead.targets, length_wordAddrs]
      change (List.replicate (wholeWords r.dws) r.tag
        ++ runLabels wholeWords (reads.map MemoryRead.burst)).length = _
      rw [List.length_append, List.length_replicate, wholeWords]

/-- The bytes asked for with a tag are those of the words asked for with it. -/
theorem askedBytes_eq {mem : HostMemory} {log : ReadDataLog}
    (sized : ∀ r ∈ log.memoryReads, r.Sized) (tag : BitVec 8)
    : log.askedBytes mem tag
      = (withLabel tag (taggedReadWords mem log.memoryReads)).flatMap wordBytes := by
  rw [ReadDataLog.askedBytes, withLabel_taggedReadWords, List.flatMap_assoc]
  refine List.flatMap_congr ?_
  intro r member
  obtain ⟨-, -, four⟩ := sized r (List.mem_filter.mp member).1
  have whole : 4 * r.dws = 16 * (r.dws / 4) := by omega
  rw [whole, loadBytes_words, MemoryRead.targets]

section Kept

variable {pt : BitVec 32 → BitVec 32} {mem : HostMemory} {s : PcieCtrl} {log : ReadDataLog}

/-- What the host serves it owes to bursts. -/
theorem HostServes.answers {e : Event} {reads : List MemoryRead}
    (serves : HostServes mem (s, log) e) (asks : ReadsAsked pt s log.reads reads)
    : HostAnswers (s, log.reads.tags) e := by
  cases e
  case filterStatReadTLP =>
    intro completion taken
    obtain ⟨positive, four, owed⟩ := serves.1 rfl completion taken
    refine ⟨positive, four, ?_⟩
    have sent : log.memoryReads = reads := asks.sent
    have sized : ∀ r ∈ log.memoryReads, r.Sized := by
      rw [sent]
      exact asks.sized
    have bytes : (log.askedBytes mem completion.1).length
        = 4 * (withLabel completion.1 (reads.map MemoryRead.burst)).sum := by
      rw [ReadDataLog.askedBytes, sent]
      clear owed sized asks sent
      induction reads with
      | nil => rfl
      | cons r reads ih =>
          rw [List.map_cons, MemoryRead.burst, withLabel_cons, List.filter_cons]
          by_cases mine : r.tag = completion.1
          · rw [if_pos mine, if_pos (decide_eq_true mine), List.flatMap_cons, List.length_append,
              ih, List.sum_cons, loadBytes, List.length_map, List.length_range]
            omega
          · rw [if_neg mine, if_neg (by simpa using mine), ih]
    have fewer : (withLabel completion.1 (reads.map MemoryRead.burst)).sum
        ≤ log.reads.tags.askedDWs completion.1 := by
      obtain ⟨rest, all⟩ := withLabel_grows completion.1 asks.bursts
      rw [TagLog.askedDWs, ← all, List.sum_append]
      exact Nat.le_add_right _ _
    rw [bytes] at owed
    change log.reads.tags.returnedDWs completion.1 + completion.2
      ≤ log.reads.tags.askedDWs completion.1
    change 4 * (log.reads.tags.returnedDWs completion.1 + completion.2) ≤ _ at owed
    omega
  all_goals trivial

/-- The payload so far is served by the host. -/
def PayloadServed (mem : HostMemory) (log : ReadDataLog) : Prop :=
  ∀ tag, ReadDataLog.payloadOf tag log.words.payload <+: log.askedBytes mem tag

/-- The host is asked for no less than before. -/
theorem askedBytes_grows (e : Event) (tag : BitVec 8)
    : log.askedBytes mem tag <+: (log.record s e).askedBytes mem tag := by
  have sent : log.memoryReads <+: (log.record s e).memoryReads := by
    refine List.IsPrefix.filterMap memoryRead ?_
    exact cutTLPs_append [] log.reads.transmit.sent (s.transmitted e).toList
  exact (sent.filter _).flatMap _

/-- What the host serves stays served. -/
theorem PayloadServed.step {e : Event} (served : PayloadServed mem log)
    (serves : HostServes mem (s, log) e)
    : PayloadServed mem (log.record s e) := by
  intro tag
  refine List.IsPrefix.trans ?_ (askedBytes_grows e tag)
  change ReadDataLog.payloadOf tag (log.words.payload ++ s.payloadTaken e) <+: _
  by_cases mine : ∃ dw ∈ s.payloadTaken e, dw.1 = tag
  · obtain ⟨dw, member, rfl⟩ := mine
    exact serves.2 dw member
  · have none : withLabel tag (s.payloadTaken e) = [] := by
      rw [withLabel, List.map_eq_nil_iff, List.filter_eq_nil_iff]
      exact fun dw member same => mine ⟨dw, member, of_decide_eq_true same⟩
    rw [ReadDataLog.payloadOf, withLabel_append, none, List.append_nil]
    exact served tag

/-- The words that arrive with a tag are the first of those asked for with it. -/
theorem PayloadServed.words (served : PayloadServed mem log) (paired : WordsPaired s log.words)
    {reads : List MemoryRead} (asks : ReadsAsked pt s log.reads reads) (tag : BitVec 8)
    : withLabel tag log.words.stored <+: withLabel tag (taggedReadWords mem reads) := by
  have sent : log.memoryReads = reads := asks.sent
  have bytes := served tag
  rw [askedBytes_eq (by rw [sent]; exact asks.sized), sent, ReadDataLog.payloadOf, paired.payload,
    withLabel_append, List.flatMap_append, taggedDWs, withLabel_pieces] at bytes
  have coded : ((withLabel tag (log.words.stored ++ s.wordsQueued)).flatMap wordDWs).flatMap
        payloadBytes
      = (withLabel tag (log.words.stored ++ s.wordsQueued)).flatMap wordBytes := by
    rw [List.flatMap_assoc]
    simp only [payloadBytes_wordDWs]
  rw [coded] at bytes
  have arrived := prefix_of_pieces (by decide) length_wordBytes wordBytes_injective
    ((List.prefix_append _ _).trans bytes)
  rw [withLabel_append] at arrived
  exact (List.prefix_append _ _).trans arrived

end Kept

-----------------------------------------------------------------------------------------
-- Whole runs
-----------------------------------------------------------------------------------------

/-- What is kept of the words on their way to the user. -/
structure ReadDataKept (pt : BitVec 32 → BitVec 32) (mem : HostMemory) (s : PcieCtrl)
    (log : ReadDataLog) : Prop where
  served : PayloadServed mem log
  paired : WordsPaired s log.words
  holds : ReorderHolds s log.reads.tags log.words.stored
  flushed : FlushWords s log.reads.tags log.flush (log.askedWords pt mem)
  credit : FlushKept s log.flush

/-- All words requested have been returned: no request is being split, no tag is out, and no word is
on its way to the user.
-/
def PcieCtrl.ReadsReturned (s : PcieCtrl) : Prop :=
  s.reads.dmaReadReqQ.items = []
  ∧ s.reads.dmaReadWords = 0
  ∧ s.retiredTags = []
  ∧ s.unretiredTags = []
  ∧ s.reorder.readFlushTag.curword = 0
  ∧ s.wordsOut = []

instance (s : PcieCtrl) : Decidable s.ReadsReturned :=
  inferInstanceAs (Decidable (_ ∧ _ ∧ _ ∧ _ ∧ _ ∧ _))

/-- The words returned to the user are the first words of host memory requested, in the order of the
requests; and they are all of them once everything is returned.
-/
structure DmaReadsInOrder (pt : BitVec 32 → BitVec 32) (mem : HostMemory) (s : PcieCtrl)
    (log : ReadDataLog) : Prop where
  inOrder : log.flush.returned <+: log.askedWords pt mem
  complete : s.ReadsReturned → log.flush.returned = log.askedWords pt mem

section Runs

variable {pt : BitVec 32 → BitVec 32} {mem : HostMemory} {p : PowerUp}
  {state : PcieCtrl × ReadDataLog}

/-- The memory reads of a run. -/
theorem readsAsked_of_reach
    (run : Reach (traced PcieCtrl.step ReadDataLog.record) (ReadServed pt mem)
      (mkPcieCtrl p, ReadDataLog.start) state)
    : (∃ planned, DmaReading pt state.1 state.2.reads planned)
      ∧ ∃ reads, ReadsAsked pt state.1 state.2.reads reads := by
  have retained : Reach (traced PcieCtrl.step DmaReadLog.record)
      (fun state e => ReadsMapped pt state.1 e) (mkPcieCtrl p, DmaReadLog.start)
      (state.1, state.2.reads) :=
    run.retain (f := ReadDataLog.reads) (fun _ _ _ => rfl) (fun _ _ _ allowed => allowed.1)
  exact ⟨dmaReading retained, dma_reads_ask retained⟩

/-- The tags of a run. -/
theorem tagsFlushed_of_reach
    (run : Reach (traced PcieCtrl.step ReadDataLog.record) (ReadServed pt mem)
      (mkPcieCtrl p, ReadDataLog.start) state)
    : TagsKept state.1 state.2.reads.tags ∧ FlushOrder state.1 state.2.reads.tags
      ∧ FlushApart state.1 state.2.reads.tags := by
  have answered : Reach (traced PcieCtrl.step ReadDataLog.record)
      (fun state e => HostAnswers (state.1, state.2.reads.tags) e ∧ FlushedBefore state.1 e)
      (mkPcieCtrl p, ReadDataLog.start) state := by
    refine run.promise ?_
    intro before e earlier allowed
    obtain ⟨-, reads, asks⟩ := readsAsked_of_reach earlier
    exact ⟨allowed.2.1.answers asks, allowed.2.2⟩
  exact flushApart_of_reach (answered.retain (r := TagLog.record)
    (f := fun log => log.reads.tags) (fun _ _ _ => rfl) (fun _ _ _ allowed => allowed))

/-- The words of the bursts are among those requested. -/
theorem DmaReading.enough {s : PcieCtrl} {log : DmaReadLog} {planned : List MemoryRead}
    (reading : DmaReading pt s log planned)
    : (runLabels wholeWords log.tags.bursts).length ≤ (targets pt log.requests).length := by
  rw [← reading.made, length_readLabels, ← reading.plan, List.length_append]
  exact Nat.le_add_right _ _

/-- The bursts that have given back their tags are made before. -/
theorem TagLog.freed_record (log : TagLog) {s : PcieCtrl} (flow : TagFlow s log) (before : PcieCtrl)
    (e : Event)
    : (log.record before e).bursts.take (log.record before e).freed.length <+: log.bursts := by
  cases e
  case splitDmaReadReq2 =>
    change (log.bursts ++ _).take log.freed.length <+: log.bursts
    rw [List.take_append_of_le_length flow.freed_le]
    exact List.take_prefix _ _
  all_goals exact List.take_prefix _ _

/-- In every run whose reads are served the words are kept; induction on the run. -/
theorem readDataKept_of_reach
    (run : Reach (traced PcieCtrl.step ReadDataLog.record) (ReadServed pt mem)
      (mkPcieCtrl p, ReadDataLog.start) state)
    : ReadDataKept pt mem state.1 state.2 := by
  induction run with
  | refl =>
      refine ⟨fun tag => List.nil_prefix, wordsPaired_reset p, reorderHolds_reset p,
        flushWords_reset p, flushKept_reset p⟩
  | @tail before after e earlier allowed fires kept =>
      obtain ⟨fired, recorded⟩ := traced_eq_some.mp fires
      obtain ⟨⟨planned, reading⟩, reads, asks⟩ := readsAsked_of_reach earlier
      obtain ⟨tagsKept, order, apart⟩ := tagsFlushed_of_reach earlier
      obtain ⟨served, paired, holds, flushed, credit⟩ := kept
      have answers := allowed.2.1.answers asks
      have enough : (runLabels wholeWords before.2.reads.tags.bursts).length
          ≤ (before.2.askedWords pt mem).length := by
        rw [ReadDataLog.askedWords, List.length_map]
        exact reading.enough
      -- The words stored are the first of those of the bursts, tag by tag.
      have received (tag : BitVec 8)
          : withLabel tag before.2.words.stored
            <+: withLabel tag ((runLabels wholeWords before.2.reads.tags.bursts).zip
              (before.2.askedWords pt mem)) := by
        refine (served.words paired asks tag).trans (withLabel_grows tag ?_)
        obtain ⟨moreBursts, bursts⟩ := asks.bursts
        obtain ⟨morePlaces, places⟩ := asks.places
        rw [taggedReadWords_eq, ← bursts, ReadDataLog.askedWords, ← places, runLabels_append,
          List.map_append, List.zip_append (by rw [List.length_map, length_readLabels])]
        exact List.prefix_append _ _
      have more : before.2.askedWords pt mem <+: after.2.askedWords pt mem := by
        rw [recorded, ReadDataLog.askedWords, ReadDataLog.askedWords]
        refine List.IsPrefix.map _ ?_
        change targets pt before.2.reads.requests
          <+: targets pt (before.2.reads.requests ++ e.readRequest)
        rw [targets, targets, List.flatMap_append]
        exact List.prefix_append _ _
      have burst : FlushesBurst (before.1, before.2.flush) e := by
        cases e
        case flushReadTag =>
          intro idle d first
          obtain ⟨waiting, taken⟩ := Fifo.first_eq_some.mp first
          obtain ⟨burst, rest, oldest, _, size⟩ := order.oldest tagsKept.flow taken
          obtain ⟨positive, _, short⟩ := order.cut burst
            (List.mem_of_mem_drop (i := before.2.reads.tags.freed.length)
              (by rw [oldest]; exact List.mem_cons_self))
          rw [size] at positive short
          exact ⟨positive, short⟩
        all_goals trivial
      have taken
          : runLabels wholeWords ((before.2.reads.tags.record before.1 e).bursts.take
              (before.2.reads.tags.record before.1 e).freed.length)
            <+: runLabels wholeWords before.2.reads.tags.bursts :=
        runLabels_prefix (before.2.reads.tags.freed_record tagsKept.flow before.1 e)
      have flushed' := flushed.step holds tagsKept order apart enough received fired
      rw [recorded] at more ⊢
      exact ⟨served.step allowed.2.1, paired.step tagsKept.counts answers fired,
        holds.step tagsKept fired,
        flushed'.widen (Nat.le_trans taken.length_le enough) more,
        credit.step burst fired⟩

/-- DMA reads return the words of host memory that were requested, in the order of the requests,
for every sequence of reads of mapped pages, every order in which the host serves the tags, as
long as no completion comes with a tag whose flush is not over, and every order of rule firings.
-/
theorem dma_reads_return
    (run : Reach (traced PcieCtrl.step ReadDataLog.record) (ReadServed pt mem)
      (mkPcieCtrl p, ReadDataLog.start) state)
    : DmaReadsInOrder pt mem state.1 state.2 := by
  obtain ⟨⟨planned, reading⟩, -⟩ := readsAsked_of_reach run
  obtain ⟨tagsKept, order, apart⟩ := tagsFlushed_of_reach run
  obtain ⟨served, paired, holds, flushed, credit⟩ := readDataKept_of_reach run
  have returned := credit.order
  refine ⟨?_, ?_⟩
  · have requested : state.2.flush.requested <+: state.2.askedWords pt mem := by
      have first := List.prefix_append state.2.flush.requested
        (state.1.slotsToFlush.map state.1.reorder.readReorder.mem)
      rw [FlushWords] at flushed
      rw [flushed] at first
      exact first.trans (List.take_prefix _ _)
    rw [returned] at requested
    exact (List.prefix_append _ _).trans requested
  · rintro ⟨noRequests, split, noRetired, noUnretired, idle, noWords⟩
    have flow := tagsKept.flow
    have all : state.2.reads.tags.freed.length = state.2.reads.tags.bursts.length := by
      have retired := congrArg List.length flow.retired
      have made := congrArg List.length flow.made
      rw [noRetired, List.append_nil] at retired
      rw [noUnretired, List.append_nil, TagLog.tags, List.length_map] at made
      omega
    have noPages : state.1.reads.dmaPageReadReqQ.items = [] := by
      rw [PcieCtrl.unretiredTags, List.append_eq_nil_iff] at noUnretired
      exact List.map_eq_nil_iff.mp noUnretired.2
    have pending : state.1.pendingReads = [] := by
      rw [PcieCtrl.pendingReads, noPages, List.zipWith_nil_left]
    have unsplit : state.1.unsplitReads pt = [] := by
      rw [PcieCtrl.unsplitReads, noRequests, split]
      rfl
    have total : (runLabels wholeWords state.2.reads.tags.bursts).length
        = (state.2.askedWords pt mem).length := by
      have plan := reading.plan
      rw [unsplit, List.append_nil] at plan
      rw [ReadDataLog.askedWords, List.length_map, ← reading.made, length_readLabels, plan]
    rw [FlushWords, PcieCtrl.slotsToFlush_idle idle, List.map_nil, List.append_nil, all,
      List.take_length, total, List.take_length, returned, noWords, List.append_nil] at flushed
    exact flushed

end Runs

-----------------------------------------------------------------------------------------
-- Completions in the other order
-----------------------------------------------------------------------------------------

/-- Each byte of memory is the low byte of its address. -/
def addressBytes : HostMemory := fun addr => addr.extractLsb 7 0

/-- The schedule of a completion of one word up to its bit in `doneTagMap`. -/
def receiveWord (tag : BitVec 8) (first second third fourth : BitVec 32) : List Event :=
  [Event.recvTLP ⟨first ++ (0#16 ++ tag ++ 0#8) ++ 0#32 ++ 0x4a000004#32, 0xffff, 0x004000⟩,
    .recvTLP ⟨0#32 ++ fourth ++ third ++ second, 0x0fff, 0x200000⟩, .filterStatReadTLP,
    .procCompletionTLP, .relayReadBurst, .updateReadBurst1, .getTagMapReadA, .updateReadBurst2,
    .relayDmaReadrQ, .writeReadBuffer, .applyDoneMap, .doneShifterStage 6, .doneShifterStage 5,
    .doneShifterStage 4, .doneShifterStage 3, .doneShifterStage 2, .doneShifterStage 1,
    .doneShifterStage 0, .procDoneShift]

/-- The schedule that retires the oldest burst, of one word, and gives the word to the user. -/
def returnOldest : List Event :=
  [.shiftOrder, .orderShifterStage 6, .orderShifterStage 5, .orderShifterStage 4,
    .orderShifterStage 3, .orderShifterStage 2, .orderShifterStage 1, .orderShifterStage 0,
    .forwardShiftOrderTagBypass, .forwardShifted, .compareOrder, .reqDoneTag, .forwardDoneTag,
    .flushReadTag, .flushReadOrdered, .relayFlushReadOrdered, .dmaReadWord]

/-- A read of two words across the end of the first page; the second word is completed first. -/
def completeBackwards : List Event :=
  List.flatten [
    [.dmaReadReq 0xff0 2, .splitDmaReadReq, .splitDmaReadReq2, .relayBufIdxRead,
      .splitDmaReadReq2, .relayBufIdxRead],
    readRequestSent, readRequestSent,
    receiveWord 1 0x00010203 0x04050607 0x08090a0b 0x0c0d0e0f,
    receiveWord 0 0xf0f1f2f3 0xf4f5f6f7 0xf8f9fafb 0xfcfdfeff,
    returnOldest, returnOldest]

/-- The two words still come in the order of their addresses. -/
theorem dma_reads_return_backwards
    : ∃ state : PcieCtrl × ReadDataLog,
        Reach (traced PcieCtrl.step ReadDataLog.record) (ReadServed twoPages addressBytes)
          (mkPcieCtrl twoPagesPowerUp, ReadDataLog.start) state
        ∧ state.2.flush.returned = [0x1ff0#32, 0x8000#32].map (loadWord addressBytes) := by
  obtain ⟨state, run, seen⟩ := exec_reach_map (traced PcieCtrl.step ReadDataLog.record)
    (ReadServed twoPages addressBytes)
    ({ mkPcieCtrl twoPagesPowerUp with tags := poolAfter 128 (Nat.le_refl 128) },
      ReadDataLog.start)
    completeBackwards
    (fun state => (targets twoPages state.2.reads.requests, decide state.1.ReadsReturned))
    ([0x1ff0, 0x8000], true) (by decide +kernel)
  have filled : Reach (traced PcieCtrl.step ReadDataLog.record) (ReadServed twoPages addressBytes)
      (mkPcieCtrl twoPagesPowerUp, ReadDataLog.start)
      ({ mkPcieCtrl twoPagesPowerUp with tags := poolAfter 128 (Nat.le_refl 128) },
        ReadDataLog.start) := by
    refine reach_poolAfter ?_ (fun _ => rfl) twoPagesPowerUp 128 (Nat.le_refl 128)
    intro _
    exact ⟨fun other => Event.noConfusion other, ⟨fun other => Event.noConfusion other,
      fun dw member => absurd member List.not_mem_nil⟩, trivial⟩
  obtain ⟨asked, returned⟩ := Prod.mk.inj seen
  have all := (dma_reads_return (filled.trans run)).complete (of_decide_eq_true returned)
  rw [ReadDataLog.askedWords, asked] at all
  exact ⟨state, filled.trans run, all⟩

end BluespecPcie

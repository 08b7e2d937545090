import BluespecPcie.Dma.ReadHelper
import BluespecPcie.Dma.ReadTags

/-! The words that `mkDMAReadHelper` returns: those of the requested buffers, in their order, as
long as the buffers have whole words.
-/

namespace BluespecPcie

open Bluespec

/-- The requests made and the words returned. -/
structure ReadHelperLog where
  requested : List (BitVec 32 × BitVec 32) := []
  returned : List DMAWord := []

namespace DMAReadHelper

open TaggedReads (addressed bufferWords bufferWords_zero bufferWords_chunk)

variable {mem : BitVec 32 → DMAWord} {P : TaggedReads mem}

/-- How an event extends the history. -/
def record {σ χ : Type} (s : DMAReadHelper × σ) (e : DMAReadHelperEvent χ) (log : ReadHelperLog)
    : ReadHelperLog :=
  match e with
  | .readReq offset bytes => { log with requested := log.requested ++ [(offset, bytes)] }
  | .read => { log with returned := log.returned ++ (s.1.read.map Prod.fst).toList }
  | .rule _ | .pcie _ => log

/-- What the requests ask for. -/
def expected (mem : BitVec 32 → DMAWord) (log : ReadHelperLog) : List DMAWord :=
  log.requested.flatMap (bufferWords mem)

/-- Requests are for a multiple of 16 bytes. -/
def WholeWords {σ χ : Type} (_ : σ) : DMAReadHelperEvent χ → Prop
  | .readReq _ bytes => bytes.toNat % 16 = 0
  | _ => True

instance {σ χ : Type} (s : σ) (e : DMAReadHelperEvent χ) : Decidable (WholeWords s e) := by
  cases e <;> unfold WholeWords <;> infer_instance

/-- Every request that was sent is answered, and neither a rule nor the interface can do a step. -/
structure Quiet (P : TaggedReads mem) (s : DMAReadHelper × P.State) : Prop where
  answered : ∀ tag, P.owes s.2 tag = []
  rules : ∀ rule, fire P s rule = none
  interface : ∀ choice, P.internal s.2 choice = none

-----------------------------------------------------------------------------------------
-- What is still to be requested
-----------------------------------------------------------------------------------------

/-- The words for which no request is sent yet. -/
def unsent (mem : BitVec 32 → DMAWord) (m : DMAReadHelper) : List DMAWord :=
  bufferWords mem (m.dmaReadHostOff, m.dmaReadLeftBytes)
    ++ m.readCmdQ.items.flatMap (bufferWords mem)

/-- A chunk of whole words has words, and what is left behind it is behind its words. -/
theorem chunkWords_whole {m : DMAReadHelper} (more : 0 < m.dmaReadLeftBytes)
    (whole : m.dmaReadLeftBytes.toNat % 16 = 0)
    : m.chunkWords ≠ 0
      ∧ bufferWords mem (m.dmaReadHostOff, m.dmaReadLeftBytes)
        = (TaggedDma.wordAddrs m.dmaReadHostOff m.chunkWords.toNat).map mem
          ++ bufferWords mem
            (if 128 ≤ m.dmaReadLeftBytes then m.dmaReadHostOff + 128 else m.dmaReadHostOff,
              if 128 ≤ m.dmaReadLeftBytes then m.dmaReadLeftBytes - 128 else 0) := by
  refine bufferWords_chunk more whole ?_
  unfold chunkWords
  split
  next => rfl
  next few =>
    have bound : m.dmaReadLeftBytes.toNat < 128 := by
      rw [BitVec.le_def] at few
      exact Nat.not_le.mp few
    rw [BitVec.toNat_setWidth, BitVec.toNat_ushiftRight, Nat.shiftRight_eq_div_pow]
    omega

-----------------------------------------------------------------------------------------
-- The invariant
-----------------------------------------------------------------------------------------

/-- What was returned, what can be returned, what is due and what is not requested yet are what was
asked for.
-/
structure Streams (mem : BitVec 32 → DMAWord) (P : TaggedReads mem)
    (s : DMAReadHelper × P.State) (log : ReadHelperLog) (due : List (BitVec 8 × DMAWord))
    : Prop where
  range : s.1.reads.InRange
  lined : s.1.reads.Lined mem (P.owes s.2) due
  whole : s.1.dmaReadLeftBytes.toNat % 16 = 0
  commands : ∀ c ∈ s.1.readCmdQ.items, c.2.toNat % 16 = 0
  words
    : log.returned ++ s.1.reads.dmaReadWordsQ2.items ++ due.map Prod.snd ++ unsent mem s.1
      = expected mem log

variable {s s' : DMAReadHelper × P.State} {log : ReadHelperLog}
variable {due : List (BitVec 8 × DMAWord)}

theorem Streams.init (P : TaggedReads mem)
    : Streams mem P (mkDMAReadHelper, P.init) {} [] := by
  refine ⟨.init, .init (by decide) P.owes_init, rfl, nofun, ?_⟩
  change [] ++ [] ++ [] ++ (bufferWords mem (0, 0) ++ []) = []
  rw [bufferWords_zero]
  rfl

/-- The registers of the read tags move on, and the output with what is due does not change. -/
theorem Streams.onReads (streams : Streams mem P s log due) {reads : ReadReorder 8 3} {p : P.State}
    {due' : List (BitVec 8 × DMAWord)} (range : reads.InRange)
    (lined : reads.Lined mem (P.owes p) due')
    (same
      : reads.dmaReadWordsQ2.items ++ due'.map Prod.snd
        = s.1.reads.dmaReadWordsQ2.items ++ due.map Prod.snd)
    : Streams mem P ({ s.1 with reads }, p) log due' := by
  refine ⟨range, lined, streams.whole, streams.commands, ?_⟩
  have words := streams.words
  rw [List.append_assoc log.returned] at words ⊢
  rw [same]
  exact words

/-- A chunk is sent: its words are due, and no longer unsent. -/
theorem Streams.sendDMARead (streams : Streams mem P s log due)
    (fires : fire P s .sendDMARead = some s')
    : ∃ due', Streams mem P s' log due' := by
  obtain ⟨⟨tag, m⟩, sent, fires⟩ := Option.bind_eq_some_iff.mp fires
  obtain ⟨p, requested, ⟨⟩⟩ := Option.bind_eq_some_iff.mp fires
  obtain ⟨more, reads, chunk, rfl⟩ := sendDMARead_spec sent
  obtain ⟨nonzero, split⟩ := @chunkWords_whole mem s.1 more streams.whole
  have owed := P.of_dmaReadReq requested
  rw [BitVec.toNat_setWidth, Nat.mod_eq_of_lt (Nat.lt_trans s.1.chunkWords.isLt (by decide))]
    at owed
  have lined := streams.lined.sendChunk nonzero s.1.dmaReadHostOff chunk
  rw [← owed] at lined
  obtain ⟨_, _, -, -, rfl⟩ := ReadReorder.sendChunk_spec chunk
  refine ⟨_, streams.range.sendChunk chunk, lined, ?_, streams.commands, ?_⟩
  · have whole := streams.whole
    change (if 128 ≤ s.1.dmaReadLeftBytes then s.1.dmaReadLeftBytes - 128 else 0).toNat % 16 = 0
    split
    next full =>
      have bound : 128 ≤ s.1.dmaReadLeftBytes.toNat := BitVec.le_def.mp full
      have rest : (s.1.dmaReadLeftBytes - 128).toNat = s.1.dmaReadLeftBytes.toNat - 128 :=
        BitVec.toNat_sub_of_le full
      omega
    next => rfl
  · rw [← streams.words]
    simp only [unsent, split, List.map_append, List.append_assoc, List.map_map,
      Function.comp_def]

/-- A word is returned by the interface. -/
theorem Streams.getDMARead (streams : Streams mem P s log due)
    (fires : fire P s .getDMARead = some s')
    : Streams mem P s' log due := by
  obtain ⟨⟨⟨tag, word⟩, p⟩, returned, fires⟩ := Option.bind_eq_some_iff.mp fires
  obtain ⟨m, taken, ⟨⟩⟩ := Option.bind_eq_some_iff.mp fires
  obtain ⟨reads, fired, rfl⟩ := onReads_eq_some taken
  obtain ⟨addr, rest, owed, rfl, owes⟩ := P.of_dmaReadWord returned
  have lined := streams.lined.getDMARead owed fired
  rw [← owes] at lined
  refine streams.onReads (streams.range.getDMARead fired) lined ?_
  rcases ReadReorder.getDMARead_cases fired with ⟨-, rfl⟩ | ⟨_, _, -, -, -, rfl⟩
  · rfl
  · rfl

/-- A word is taken out of the queue of its tag. -/
theorem Streams.drained (streams : Streams mem P s log due) {reads : ReadReorder 8 3}
    {tag : BitVec 8} {word : DMAWord} (taken : ReadReorder.Drained s.1.reads reads tag word)
    : ∃ due', Streams mem P ({ s.1 with reads }, s.2) log due' := by
  obtain ⟨rest, rfl, lined⟩ := streams.lined.drained taken
  refine ⟨rest, streams.onReads (streams.range.drained taken) lined ?_⟩
  rw [taken.output, List.map_cons, List.append_assoc, List.singleton_append]

/-- The next buffer is taken up. -/
theorem Streams.dmaReadCmd (streams : Streams mem P s log due)
    (fires : fire P s .dmaReadCmd = some s')
    : Streams mem P s' log due := by
  obtain ⟨m, fired, rfl⟩ := Option.map_eq_some_iff.mp fires
  unfold DMAReadHelper.dmaReadCmd at fired
  split at fired
  next idle =>
    obtain ⟨⟨⟨offset, bytes⟩, readCmdQ⟩, first, ⟨⟩⟩ := Option.bind_eq_some_iff.mp fired
    have items := Fifo.deq_eq_some.mp first
    have whole := streams.commands (offset, bytes) (by simp [items])
    refine ⟨streams.range, streams.lined, whole, ?_, ?_⟩
    · intro c member
      exact streams.commands c (by simp [items, member])
    · have words := streams.words
      rw [unsent, idle, bufferWords_zero, List.nil_append, items, List.flatMap_cons] at words
      exact words
  next => cases fired

/-- A step keeps the invariant. -/
theorem Streams.step (streams : Streams mem P s log due) {e : DMAReadHelperEvent P.Choice}
    (whole : WholeWords s e) (fires : step P s e = some s')
    : ∃ due', Streams mem P s' (record s e log) due' := by
  cases e with
  | rule rule =>
      cases rule with
      | sendDMARead => exact streams.sendDMARead fires
      | getDMARead => exact ⟨due, streams.getDMARead fires⟩
      | dmaReadCmd => exact ⟨due, streams.dmaReadCmd fires⟩
      | initDmaTagR =>
          obtain ⟨m, fired, rfl⟩ := Option.map_eq_some_iff.mp fires
          obtain ⟨reads, moved, rfl⟩ := onReads_eq_some fired
          refine ⟨due, streams.onReads (streams.range.initDmaTagR moved)
            (streams.lined.initDmaTagR (by decide) moved) ?_⟩
          obtain ⟨_, _, -, -, -, rfl⟩ := ReadReorder.initDmaTagR_spec moved
          rfl
      | relayDmaReadWords =>
          obtain ⟨m, fired, rfl⟩ := Option.map_eq_some_iff.mp fires
          obtain ⟨reads, moved, rfl⟩ := onReads_eq_some fired
          refine ⟨due, streams.onReads (streams.range.relayDmaReadWords moved)
            (streams.lined.relayDmaReadWords moved) ?_⟩
          obtain ⟨_, _, _, _, -, -, rfl⟩ := ReadReorder.relayDmaReadWords_spec moved
          rfl
      | startReorderRead =>
          obtain ⟨m, fired, rfl⟩ := Option.map_eq_some_iff.mp fires
          obtain ⟨reads, moved, rfl⟩ := onReads_eq_some fired
          obtain ⟨_, _, taken⟩ :=
            ReadReorder.startReorderRead_drained (by decide) streams.range moved
          exact streams.drained taken
      | reorderRead =>
          obtain ⟨m, fired, rfl⟩ := Option.map_eq_some_iff.mp fires
          obtain ⟨reads, moved, rfl⟩ := onReads_eq_some fired
          obtain ⟨_, _, taken⟩ := ReadReorder.reorderRead_drained moved
          exact streams.drained taken
  | pcie choice =>
      obtain ⟨p, fired, rfl⟩ := Option.map_eq_some_iff.mp fires
      refine ⟨due, streams.onReads streams.range ?_ rfl⟩
      rw [P.of_internal fired]
      exact streams.lined
  | readReq offset bytes =>
      obtain ⟨m, fired, rfl⟩ := Option.map_eq_some_iff.mp fires
      obtain ⟨readCmdQ, added, ⟨⟩⟩ := Option.bind_eq_some_iff.mp fired
      have items := (Fifo.enq_eq_some.mp added).2
      refine ⟨due, streams.range, streams.lined, streams.whole, ?_, ?_⟩
      · intro c member
        rcases List.mem_append.mp (items ▸ member) with old | new
        case inl => exact streams.commands c old
        case inr =>
          obtain rfl := List.mem_singleton.mp new
          exact whole
      · change _ ++ _ ++ _ ++ unsent mem { s.1 with readCmdQ }
          = (log.requested ++ [(offset, bytes)]).flatMap (bufferWords mem)
        rw [List.flatMap_append, ← expected, ← streams.words, unsent, items, List.flatMap_append]
        simp only [unsent, List.append_assoc]
        rfl
  | read =>
      obtain ⟨⟨word, m⟩, fired, rfl⟩ := Option.map_eq_some_iff.mp fires
      have isRead : s.1.read = some (word, m) := fired
      obtain ⟨⟨_, reads⟩, taken, ⟨⟩⟩ := Option.bind_eq_some_iff.mp fired
      refine ⟨due, streams.range.takeWord taken, streams.lined.takeWord taken, streams.whole,
        streams.commands, ?_⟩
      obtain ⟨⟨_, dmaReadWordsQ2⟩, first, ⟨⟩⟩ := Option.bind_eq_some_iff.mp taken
      have words := streams.words
      rw [Fifo.deq_eq_some.mp first] at words
      change (log.returned ++ (s.1.read.map Prod.fst).toList) ++ dmaReadWordsQ2.items
        ++ due.map Prod.snd ++ unsent mem s.1 = expected mem log
      rw [isRead, ← words]
      simp

/-- Every run of whole words keeps the invariant. -/
theorem streams_of_reach
    {state : (DMAReadHelper × P.State) × ReadHelperLog}
    (run
      : Reach (traced (step P) record) WholeWords ((mkDMAReadHelper, P.init), {}) state)
    : ∃ due, Streams mem P state.1 state.2 due := by
  refine run.invariant (P := fun state => ∃ due, Streams mem P state.1 state.2 due)
    ⟨[], .init P⟩ ?_
  rintro state e state' ⟨due, streams⟩ whole fires
  obtain ⟨fired, recorded⟩ := traced_eq_some.mp fires
  rw [recorded]
  exact streams.step (by cases e <;> exact whole) fired

-----------------------------------------------------------------------------------------
-- Nothing left to do
-----------------------------------------------------------------------------------------

/-- With nothing left to do and room at the output, every word that was asked for is there. -/
theorem Streams.complete (streams : Streams mem P s log due) (flows : s.1.reads.Flows)
    (quiet : Quiet P s) (room : s.1.reads.dmaReadWordsQ2.items.length < 16)
    : log.returned ++ s.1.reads.dmaReadWordsQ2.items = expected mem log := by
  have idle : ∀ {rule reads}, fire P s rule = (s.1.onReads reads).map (·, s.2) → reads = none := by
    intro rule reads isRule
    have none := quiet.rules rule
    rw [isRule, Option.map_eq_none_iff, DMAReadHelper.onReads, Option.map_eq_none_iff] at none
    exact none
  obtain rfl : due = [] :=
    streams.lined.nothing_due flows room quiet.answered
      (idle (show fire P s .relayDmaReadWords = _ from rfl))
      (idle (show fire P s .startReorderRead = _ from rfl))
      (idle (show fire P s .reorderRead = _ from rfl))
  have sent : s.1.dmaReadLeftBytes = 0 := by
    by_contra more
    have more : 0 < s.1.dmaReadLeftBytes := by bv_omega
    obtain ⟨ready, chunk⟩ := streams.lined.chunk_ready (by decide) (by decide) quiet.answered
      (idle (show fire P s .initDmaTagR = _ from rfl)) s.1.chunkWords
    obtain ⟨⟨tag, reads⟩, chunk⟩ := Option.isSome_iff_exists.mp chunk
    obtain ⟨p, taken⟩ := Option.isSome_iff_exists.mp
      (@TaggedReads.takes _ P s.2 s.1.dmaReadHostOff (s.1.chunkWords.setWidth 10) tag
        quiet.answered quiet.interface)
    have none := quiet.rules .sendDMARead
    rw [fire, DMAReadHelper.sendDMARead, if_pos ⟨ready, more⟩] at none
    simp [chunk, taken] at none
  have noCommand : s.1.readCmdQ.items = [] := by
    cases items : s.1.readCmdQ.items with
    | nil => rfl
    | cons c rest =>
        obtain ⟨readCmdQ, dequeued, -⟩ := Fifo.deq_of_items items
        have none := quiet.rules .dmaReadCmd
        simp [fire, DMAReadHelper.dmaReadCmd, sent, dequeued] at none
  have words := streams.words
  rw [unsent, sent, bufferWords_zero, noCommand] at words
  simpa using words

/-- Words that wait have room once the words before them are in their queues. -/
theorem flows_of_reach {state : (DMAReadHelper × P.State) × ReadHelperLog}
    (run
      : Reach (traced (step P) record) (fun s e => WholeWords s e ∧ WordsFit P s.1 e)
          ((mkDMAReadHelper, P.init), {}) state)
    : state.1.1.reads.Flows := by
  have both
      : state.1.1.reads.InRange ∧ state.1.1.reads.Flows := by
    refine run.invariant
      (P := fun state => state.1.1.reads.InRange ∧ state.1.1.reads.Flows) ⟨.init, .init⟩ ?_
    intro s e s' kept allowed fires
    have moved := reads_step (traced_eq_some.mp fires).1
    exact ⟨moved.inRange (by decide) kept.1, moved.flows (by decide) kept.1 allowed.2 kept.2⟩
  exact both.2

/-- Words are returned in the order in which they were asked for, and with nothing left to do all
of them are at the output, or as many as its queue holds.
-/
theorem reads_in_order (mem : BitVec 32 → DMAWord) (P : TaggedReads mem)
    : (∀ state : (DMAReadHelper × P.State) × ReadHelperLog,
        Reach (traced (step P) record) WholeWords ((mkDMAReadHelper, P.init), {}) state
        → state.2.returned <+: expected mem state.2)
      ∧ (∀ state : (DMAReadHelper × P.State) × ReadHelperLog,
          Reach (traced (step P) record) (fun s e => WholeWords s e ∧ WordsFit P s.1 e)
            ((mkDMAReadHelper, P.init), {}) state
          → Quiet P state.1
          → state.1.1.reads.dmaReadWordsQ2.items.length = 16
            ∨ state.2.returned ++ state.1.1.reads.dmaReadWordsQ2.items
              = expected mem state.2) := by
  constructor
  case left =>
    intro state run
    obtain ⟨due, streams⟩ := streams_of_reach run
    rw [← streams.words, List.append_assoc, List.append_assoc]
    exact List.prefix_append _ _
  case right =>
    intro state run quiet
    obtain ⟨due, streams⟩ := streams_of_reach (run.weaken (fun allowed => allowed.1))
    have bound := state.1.1.reads.dmaReadWordsQ2.bounded
    by_cases full : state.1.1.reads.dmaReadWordsQ2.items.length = 16
    · exact .inl full
    · exact .inr (streams.complete (flows_of_reach run) quiet (by omega))

-----------------------------------------------------------------------------------------
-- Two schedules
-----------------------------------------------------------------------------------------

/-- Whether nothing is left to do over an interface that takes every request at once. -/
def settled (s : DMAReadHelper × (TaggedReads.anyOrder mem).State) : Bool :=
  ([.initDmaTagR, .sendDMARead, .getDMARead, .relayDmaReadWords, .startReorderRead, .reorderRead,
      .dmaReadCmd] : List DMAReadHelperRule).all
    (fun rule => (fire (.anyOrder mem) s rule).isNone)
  && (List.range 256).all (fun i => (s.2.1 (BitVec.ofNat 8 i)).isEmpty)

theorem quiet_of_settled {s : DMAReadHelper × (TaggedReads.anyOrder mem).State}
    (isSettled : settled s = true)
    : Quiet (.anyOrder mem) s := by
  obtain ⟨rules, owed⟩ := Bool.and_eq_true_iff.mp isSettled
  have answered : ∀ tag, s.2.1 tag = [] := by
    intro tag
    have none := List.all_eq_true.mp owed tag.toNat (List.mem_range.mpr tag.isLt)
    rw [BitVec.ofNat_toNat, BitVec.setWidth_eq] at none
    exact List.isEmpty_iff.mp none
  refine ⟨answered, ?_, ?_⟩
  · intro rule
    refine Option.isNone_iff_eq_none.mp (List.all_eq_true.mp rules rule ?_)
    cases rule <;> decide
  · intro choice
    exact if_neg (fun more => more.1 (answered choice))

/-- The tags are put into use, and a request for `bytes` is taken up. -/
def requestTaken (bytes : BitVec 32) : List (DMAReadHelperEvent (BitVec 8)) :=
  [.readReq 64 bytes] ++ List.replicate 8 (.rule .initDmaTagR) ++ [.rule .dmaReadCmd]

/-- Three words are requested, come back and are put in order; one is read. -/
def threeWords : List (DMAReadHelperEvent (BitVec 8)) :=
  requestTaken 48 ++ [.rule .sendDMARead]
    ++ (List.replicate 3 [.rule .getDMARead, .rule .relayDmaReadWords]).flatten
    ++ [.rule .startReorderRead, .rule .reorderRead, .rule .reorderRead, .read]

/-- What was requested and returned, what is at the output, and whether nothing is left to do. -/
def seen (state : (DMAReadHelper × (TaggedReads.anyOrder addressed).State) × ReadHelperLog)
    : List (BitVec 32 × BitVec 32) × List DMAWord × List DMAWord × Bool :=
  (state.2.requested, state.2.returned, state.1.1.reads.dmaReadWordsQ2.items, settled state.1)

/-- A run of whole words to its end. -/
theorem reads_in_order_threeWords
    : ∃ state : (DMAReadHelper × (TaggedReads.anyOrder addressed).State) × ReadHelperLog,
        seen state = ([(64, 48)], [64], [80, 96], true)
        ∧ state.2.returned <+: expected addressed state.2
        ∧ (state.1.1.reads.dmaReadWordsQ2.items.length = 16
          ∨ state.2.returned ++ state.1.1.reads.dmaReadWordsQ2.items
            = expected addressed state.2) := by
  obtain ⟨state, run, observed⟩ := exec_reach_map (traced (step (.anyOrder addressed)) record)
    (fun s e => WholeWords s e ∧ WordsFit (.anyOrder addressed) s.1 e)
    ((mkDMAReadHelper, (TaggedReads.anyOrder addressed).init), {})
    threeWords seen ([(64, 48)], [64], [80, 96], true) (by decide +kernel)
  have isSettled : settled state.1 = true := congrArg (fun v => v.2.2.2) observed
  exact ⟨state, observed,
    (reads_in_order addressed (.anyOrder addressed)).1 state
      (run.weaken (fun allowed => allowed.1)),
    (reads_in_order addressed (.anyOrder addressed)).2 state run (quiet_of_settled isSettled)⟩

/-- A request for 8 bytes is sent as a request for no words: nothing is left to do, and no word
comes.
-/
theorem partial_word_never_comes
    : ¬ ∀ (mem : BitVec 32 → DMAWord) (P : TaggedReads mem)
        (state : (DMAReadHelper × P.State) × ReadHelperLog),
        Reach (traced (step P) record) anyEvent ((mkDMAReadHelper, P.init), {}) state
        → state.2.returned <+: expected mem state.2
          ∧ (Quiet P state.1
            → state.1.1.reads.dmaReadWordsQ2.items.length = 16
              ∨ state.2.returned ++ state.1.1.reads.dmaReadWordsQ2.items
                = expected mem state.2) := by
  intro always
  obtain ⟨state, run, observed⟩ := exec_reach_map (traced (step (.anyOrder addressed)) record)
    anyEvent ((mkDMAReadHelper, (TaggedReads.anyOrder addressed).init), {})
    (requestTaken 8 ++ [.rule .sendDMARead]) seen ([(64, 8)], [], [], true) (by decide +kernel)
  obtain ⟨requested, returned, output, isSettled⟩ := by simpa [seen] using observed
  have all := (always addressed (.anyOrder addressed) state run).2 (quiet_of_settled isSettled)
  rw [returned, output, expected, requested] at all
  revert all
  decide

end DMAReadHelper

end BluespecPcie

import BluespecPcie.Dma.WriteHelper

/-! `mkDMAWriteHelper`: where the words of the stream are stored, and what is reported. -/

namespace BluespecPcie

open Bluespec

-----------------------------------------------------------------------------------------
-- Reports
-----------------------------------------------------------------------------------------

/-- A reported buffer with its words; `last` if a flush ended it. -/
structure BufferReport where
  last : Bool
  off : BitVec 32
  words : List DMAWord

namespace BufferReport

/-- The message of `bufferDone`. -/
def message (r : BufferReport) : Bool × BitVec 32 × BitVec 32 :=
  (r.last, r.off, BitVec.ofNat 32 (16 * r.words.length))

/-- The calls of `write` that the buffer stands for. -/
def calls (r : BufferReport) : List (Option DMAWord) :=
  r.words.map some ++ if r.last then [none] else []

/-- The stores that fill the buffer. -/
def stores (r : BufferReport) : List (BitVec 32 × DMAWord) :=
  Stores.placed (TaggedDma.wordAddr r.off) r.words

/-- As many stores as words. -/
theorem length_stores (reports : List BufferReport)
    : (reports.flatMap stores).length = (reports.flatMap words).length := by
  simp [List.length_flatMap, stores]

end BufferReport

namespace DMAWriteHelper

/-- The messages that `bufferDone` has not returned yet. -/
def messages (m : DMAWriteHelper) : List (Bool × BitVec 32 × BitVec 32) :=
  (m.writeDoneQ2.items ++ m.writeDoneQ.items).map message

/-- The calls of `write` whose words no burst has taken, the oldest first. -/
def waiting (m : DMAWriteHelper) : List (Option DMAWord) :=
  (m.writeBufferDataQ.items.drop m.dmaCurWriteLeft.toNat).map some
    ++ (if m.writeBufferFlush then [none] else []) ++ m.writeSyncQ.items

end DMAWriteHelper

namespace WriteHelperLog

/-- A burst is no larger than the rest of its buffer. -/
def Fits {σ : Type} (s : (DMAWriteHelper × σ) × WriteHelperLog) : DMAWriteHelperEvent → Prop
  | .rule .genPcieWrite => 8 ≤ s.1.1.dmaWriteLeftWords.toNat
  | .rule .genPcieFlush => s.1.1.qcount.toNat ≤ s.1.1.dmaWriteLeftWords.toNat
  | _ => True

/-- The stream lies in the reported buffers, behind them in the buffer that is in use, and
behind it in the module. The stores are those of the buffers in order, without the words of
the burst that are not sent yet, and at its last store each reported buffer holds its words.
-/
structure Placed (P : TaggedDma) (s : DMAWriteHelper × P.State) (log : WriteHelperLog)
    (reports : List BufferReport) (current : List DMAWord) : Prop where
  messages : log.done ++ s.1.messages = reports.map BufferReport.message
  fits : ∀ r ∈ reports, 16 * r.words.length < 2 ^ 32
  written
    : log.written = reports.flatMap BufferReport.calls ++ current.map some ++ s.1.waiting
  stored
    : ∃ missing,
        missing.length = s.1.dmaCurWriteLeft.toNat
        ∧ P.stores s.2 ++ missing
          = reports.flatMap BufferReport.stores
            ++ Stores.placed (TaggedDma.wordAddr log.buffer.1) current
  read
    : ∀ before r after,
        reports = before ++ r :: after
        → ((before ++ [r]).flatMap BufferReport.words).length ≤ (P.stores s.2).length
        → TaggedDma.readWords
            ((P.stores s.2).take ((before ++ [r]).flatMap BufferReport.words).length)
            r.off r.words.length
          = r.words.map some

-----------------------------------------------------------------------------------------
-- The invariant
-----------------------------------------------------------------------------------------

/-- What the registers say about the buffer in use and its words so far. -/
structure InUse (m : DMAWriteHelper) (buffer : BitVec 32 × BitVec 32) (current : List DMAWord)
    : Prop where
  unused : m.dmaWriteLeftWords = 0 → m.dmaCurBufferWriteCnt = 0 ∧ current = []
  startOff : m.dmaWriteLeftWords ≠ 0 → m.dmaWriteHostStartOff = some buffer.1
  hostOff
    : m.dmaWriteLeftWords ≠ 0
      → m.dmaWriteHostOff = TaggedDma.wordAddr buffer.1 current.length
  count : m.dmaWriteLeftWords ≠ 0 → m.dmaCurBufferWriteCnt.toNat = current.length
  left
    : m.dmaWriteLeftWords ≠ 0
      → current.length + m.dmaWriteLeftWords.toNat = buffer.2.toNat / 16

/-- The invariant of a run. -/
structure Inv (P : TaggedDma) (m : DMAWriteHelper) (p : P.State) (log : WriteHelperLog)
    (reports : List BufferReport) (current : List DMAWord) : Prop where
  inside : ∀ w ∈ log.requests, w.Inside
  messages : log.done ++ m.messages = reports.map BufferReport.message
  fits : ∀ r ∈ reports, 16 * r.words.length < 2 ^ 32
  written : log.written = reports.flatMap BufferReport.calls ++ current.map some ++ m.waiting
  stored
    : P.stores p
        ++ Stores.placed (TaggedDma.wordAddr (P.next p m.dmaCurTag))
            (m.writeBufferDataQ.items.take m.dmaCurWriteLeft.toNat)
      = reports.flatMap BufferReport.stores
        ++ Stores.placed (TaggedDma.wordAddr log.buffer.1) current
  counted : m.qcount.toNat = m.writeBufferDataQ.items.length
  under : m.dmaCurWriteLeft.toNat ≤ m.writeBufferDataQ.items.length
  lacks : 0 < m.dmaCurWriteLeft.toNat → P.lacks p m.dmaCurTag = m.dmaCurWriteLeft.toNat
  inUse : InUse m log.buffer current

/-- At the last store of a reported buffer it holds its words. -/
theorem read_of_stored {stores missing rest : List (BitVec 32 × DMAWord)}
    {before after : List BufferReport} {r : BufferReport}
    (stored : stores ++ missing = (before ++ r :: after).flatMap BufferReport.stores ++ rest)
    (small : 16 * r.words.length < 2 ^ 32)
    (enough : ((before ++ [r]).flatMap BufferReport.words).length ≤ stores.length)
    : TaggedDma.readWords
        (stores.take ((before ++ [r]).flatMap BufferReport.words).length) r.off r.words.length
      = r.words.map some := by
  have whole : (before ++ r :: after).flatMap BufferReport.stores ++ rest
      = (before ++ [r]).flatMap BufferReport.stores
        ++ (after.flatMap BufferReport.stores ++ rest) := by
    simp
  have split : stores.take ((before ++ [r]).flatMap BufferReport.words).length
      = before.flatMap BufferReport.stores ++ r.stores := by
    have extended : (stores ++ missing).take _ = stores.take _ :=
      List.take_append_of_le_length enough
    rw [← extended, stored, whole, ← BufferReport.length_stores, List.take_left]
    simp
  rw [split]
  exact TaggedDma.readWords_placed _ r.off r.words small

/-- What the invariant says. -/
theorem Inv.placed {P : TaggedDma} {m : DMAWriteHelper} {p : P.State} {log : WriteHelperLog}
    {reports : List BufferReport} {current : List DMAWord} (inv : Inv P m p log reports current)
    : Placed P (m, p) log reports current := by
  obtain ⟨_, messages, fits, written, stored, _, under, _, _⟩ := inv
  refine ⟨messages, fits, written, ⟨_, ?_, stored⟩, ?_⟩
  · rw [Stores.length_placed, List.length_take, Nat.min_eq_left under]
  · rintro before r after rfl enough
    exact read_of_stored stored (fits r (by simp)) enough

-----------------------------------------------------------------------------------------
-- Steps
-----------------------------------------------------------------------------------------

section Steps

variable {P : TaggedDma} {m m' : DMAWriteHelper} {p p' : P.State} {log : WriteHelperLog}
  {reports : List BufferReport} {current : List DMAWord}

theorem Inv.relayWriteDone (inv : Inv P m p log reports current)
    (fires : m.relayWriteDone = some m')
    : Inv P m' p log reports current := by
  obtain ⟨⟨d, writeDoneQ⟩, taken, fires⟩ := Option.bind_eq_some_iff.mp fires
  obtain ⟨writeDoneQ2, put, ⟨⟩⟩ := Option.bind_eq_some_iff.mp fires
  have same : writeDoneQ2.items ++ writeDoneQ.items
      = m.writeDoneQ2.items ++ m.writeDoneQ.items := by
    rw [(Fifo.enq_eq_some.mp put).2, Fifo.deq_eq_some.mp taken, List.append_assoc]
    rfl
  obtain ⟨inside, messages, fits, written, stored, counted, under, lacks, inUse⟩ := inv
  refine ⟨inside, ?_, fits, written, stored, counted, under, lacks, ?_⟩
  · rw [DMAWriteHelper.messages, same]
    exact messages
  · exact ⟨inUse.unused, inUse.startOff, inUse.hostOff, inUse.count, inUse.left⟩

theorem Inv.initDmaTagW (inv : Inv P m p log reports current)
    (fires : m.initDmaTagW = some m')
    : Inv P m' p log reports current := by
  unfold DMAWriteHelper.initDmaTagW at fires
  split at fires
  next =>
    obtain ⟨dmaWriteFreeTagQ, put, ⟨⟩⟩ := Option.bind_eq_some_iff.mp fires
    obtain ⟨inside, messages, fits, written, stored, counted, under, lacks, inUse⟩ := inv
    exact ⟨inside, messages, fits, written, stored, counted, under, lacks,
      ⟨inUse.unused, inUse.startOff, inUse.hostOff, inUse.count, inUse.left⟩⟩
  next => cases fires

/-- A word moves into the BRAM queue, or a flush is noted behind the words there. -/
theorem Inv.relayWriteSync (inv : Inv P m p log reports current)
    (fires : m.relayWriteSync = some m')
    : Inv P m' p log reports current := by
  unfold DMAWriteHelper.relayWriteSync at fires
  split at fires
  next quiet =>
    obtain ⟨⟨d, writeSyncQ⟩, taken, fires⟩ := Option.bind_eq_some_iff.mp fires
    have oldest := Fifo.deq_eq_some.mp taken
    obtain ⟨inside, messages, fits, written, stored, counted, under, lacks, inUse⟩ := inv
    cases d with
    | some word =>
        obtain ⟨writeBufferDataQ, put, ⟨⟩⟩ := Option.bind_eq_some_iff.mp fires
        obtain ⟨room, items⟩ := Fifo.enq_eq_some.mp put
        refine ⟨inside, messages, fits, ?_, ?_, ?_, ?_, lacks,
          ⟨inUse.unused, inUse.startOff, inUse.hostOff, inUse.count, inUse.left⟩⟩
        · rw [written]
          simp only [DMAWriteHelper.waiting, quiet, oldest, items]
          rw [List.drop_append_of_le_length under]
          simp
        · change P.stores p ++ Stores.placed _ (writeBufferDataQ.items.take _) = _
          rw [items, List.take_append_of_le_length under]
          exact stored
        · have bound := m.writeBufferDataQ.bounded
          rw [items, List.length_append, List.length_singleton]
          simp only [DMAWriteHelper.qcount] at counted ⊢
          bv_omega
        · rw [items, List.length_append]
          exact Nat.le_add_right_of_le under
    | none =>
        cases fires
        refine ⟨inside, messages, fits, ?_, stored, counted, under, lacks,
          ⟨inUse.unused, inUse.startOff, inUse.hostOff, inUse.count, inUse.left⟩⟩
        rw [written]
        simp [DMAWriteHelper.waiting, quiet, oldest]
  next => cases fires

/-- A burst continues the buffer in use. -/
theorem Inv.request (inv : Inv P m p log reports current) (some : m.dmaWriteLeftWords ≠ 0)
    (words : BitVec 10) (room : words.toNat ≤ m.dmaWriteLeftWords.toNat)
    : BufferWrite.Inside ⟨log.buffer.1, log.buffer.2, m.dmaWriteHostOff, words⟩ := by
  refine ⟨current.length, inv.inUse.hostOff some, ?_⟩
  have left := inv.inUse.left some
  change 16 * (current.length + words.toNat) ≤ log.buffer.2.toNat
  omega

/-- The words of a burst join those of the buffer in use: where they are stored. -/
theorem Inv.stored_burst (inv : Inv P m p log reports current) (idle : m.dmaCurWriteLeft = 0)
    (some : m.dmaWriteLeftWords ≠ 0) (taken : List DMAWord)
    : P.stores p ++ Stores.placed (TaggedDma.wordAddr m.dmaWriteHostOff) taken
      = reports.flatMap BufferReport.stores
        ++ Stores.placed (TaggedDma.wordAddr log.buffer.1) (current ++ taken) := by
  have before := inv.stored
  rw [idle] at before
  have here : P.stores p = reports.flatMap BufferReport.stores
      ++ Stores.placed (TaggedDma.wordAddr log.buffer.1) current := by
    simpa using before
  have behind : TaggedDma.wordAddr m.dmaWriteHostOff
      = fun i => TaggedDma.wordAddr log.buffer.1 (i + current.length) := by
    funext i
    rw [TaggedDma.wordAddr_add, inv.inUse.hostOff some]
  rw [here, List.append_assoc, Stores.placed_append, behind]

/-- The words of a burst join those of the buffer in use: where they are in the stream. -/
theorem Inv.written_burst (inv : Inv P m p log reports current) (idle : m.dmaCurWriteLeft = 0)
    (n : Nat)
    : log.written = reports.flatMap BufferReport.calls
        ++ (current ++ m.writeBufferDataQ.items.take n).map some
        ++ ((m.writeBufferDataQ.items.drop n).map some
          ++ (if m.writeBufferFlush then [none] else []) ++ m.writeSyncQ.items) := by
  have whole : (m.writeBufferDataQ.items.take n).map some
        ++ (m.writeBufferDataQ.items.drop n).map some
      = m.writeBufferDataQ.items.map some := by
    rw [← List.map_append, List.take_append_drop]
  rw [inv.written, DMAWriteHelper.waiting, idle, List.map_append, List.append_assoc,
    List.append_assoc, List.append_assoc, List.append_assoc, List.append_assoc,
    ← List.append_assoc (List.map some (List.take n _)), whole]
  rfl

/-- The number of bytes of a message. -/
theorem message_count {count : BitVec 32} {n : Nat} (exact_ : count.toNat = n)
    : count <<< 4 = BitVec.ofNat 32 (16 * n) := by
  refine BitVec.eq_of_toNat_eq ?_
  rw [BitVec.toNat_shiftLeft, BitVec.toNat_ofNat, exact_, Nat.shiftLeft_eq, Nat.mul_comm]

/-- A report is entered behind the others. -/
theorem messages_enq {done : List (Bool × BitVec 32 × BitVec 32)}
    {d : Bool × BitVec 32 × BitVec 32} {r : BufferReport}
    (messages : done ++ m.messages = reports.map BufferReport.message)
    (put : m.writeDoneQ.enq d = some m'.writeDoneQ) (same : DMAWriteHelper.message d = r.message)
    (relayed : m'.writeDoneQ2 = m.writeDoneQ2)
    : done ++ m'.messages = (reports ++ [r]).map BufferReport.message := by
  have split : (reports ++ [r]).map BufferReport.message
      = reports.map BufferReport.message ++ [r].map BufferReport.message := List.map_append
  rw [split, ← messages, DMAWriteHelper.messages, relayed,
    (Fifo.enq_eq_some.mp put).2, DMAWriteHelper.messages, List.append_assoc]
  simp [same]

/-- A full burst. -/
theorem Inv.genPcieWrite {call : Option DmaWriteCall} (inv : Inv P m p log reports current)
    (room : 8 ≤ m.dmaWriteLeftWords.toNat) (fires : m.genPcieWrite = some (m', call))
    (accepted : P.accept p call = some p')
    : ∃ reports' current',
        Inv P m' p' { log with requests := log.requests ++ log.requested call }
          reports' current' := by
  unfold DMAWriteHelper.genPcieWrite at fires
  split at fires
  next ready =>
    obtain ⟨idle, positive, full⟩ := ready
    obtain ⟨⟨writeTag, dmaWriteFreeTagQ⟩, free, fires⟩ := Option.bind_eq_some_iff.mp fires
    obtain ⟨writeDoneQ, reported, ⟨⟩⟩ := Option.bind_eq_some_iff.mp fires
    have some : m.dmaWriteLeftWords ≠ 0 := fun zero => by simp [zero] at room
    have queued : 8 < m.writeBufferDataQ.items.length := by
      rw [← inv.counted]
      exact full
    have stored := inv.stored_burst idle some (m.writeBufferDataQ.items.take 8)
    have written := inv.written_burst idle 8
    obtain ⟨same, next, lacks⟩ := P.of_dmaWriteReq accepted
    have request := inv.request some 8 room
    obtain ⟨inside, messages, fits, _, _, counted, _, _, inUse⟩ := inv
    have count := inUse.count some
    have left := inUse.left some
    have inside' : ∀ w ∈ log.requests ++ log.requested
        (.some (.dmaWriteReq m.dmaWriteHostOff 8 writeTag)), w.Inside := by
      intro w member
      rcases List.mem_append.mp member with old | new
      · exact inside w old
      · rw [List.mem_singleton.mp new]
        exact request
    unfold DMAWriteHelper.reportFull at reported
    split at reported
    next last =>
      refine ⟨reports ++ [⟨false, log.buffer.1,
        current ++ m.writeBufferDataQ.items.take 8⟩], [], inside', ?_, ?_, ?_, ?_, counted,
        Nat.le_of_lt queued, fun _ => lacks, ?_⟩
      · refine messages_enq messages reported ?_ rfl
        have bytes : (m.dmaCurBufferWriteCnt + 8).toNat
            = (current ++ m.writeBufferDataQ.items.take 8).length := by
          rw [List.length_append, List.length_take, Nat.min_eq_left (Nat.le_of_lt queued),
            ← count]
          bv_omega
        rw [BufferReport.message, ← message_count bytes, inUse.startOff some]
        rfl
      · intro r member
        rcases List.mem_append.mp member with old | new
        · exact fits r old
        · rw [List.mem_singleton.mp new]
          have bound := log.buffer.2.isLt
          simp only [List.length_append, List.length_take, Nat.min_eq_left (Nat.le_of_lt queued)]
          omega
      · rw [written]
        simp [BufferReport.calls, DMAWriteHelper.waiting]
      · change P.stores p' ++ Stores.placed (TaggedDma.wordAddr (P.next p' writeTag)) _ = _
        rw [same, next]
        refine stored.trans ?_
        simp [BufferReport.stores]
      · have drained : m.dmaWriteLeftWords - 8 = 0 := by rw [last]; rfl
        refine ⟨fun _ => ⟨if_pos last, rfl⟩, ?_, ?_, ?_, ?_⟩
        all_goals exact fun remaining => absurd drained remaining
    next more =>
      cases reported
      have after : (m.dmaWriteLeftWords - 8).toNat = m.dmaWriteLeftWords.toNat - 8 := by
        bv_omega
      have remaining : m.dmaWriteLeftWords - 8 ≠ 0 := by
        intro none
        rw [none] at after
        refine more (BitVec.eq_of_toNat_eq ?_)
        change 0 = _ at after
        change _ = 8
        omega
      have grown : (current ++ m.writeBufferDataQ.items.take 8).length = current.length + 8 := by
        rw [List.length_append, List.length_take, Nat.min_eq_left (Nat.le_of_lt queued)]
      refine ⟨reports, current ++ m.writeBufferDataQ.items.take 8, inside', messages, fits,
        written, ?_, counted, Nat.le_of_lt queued, fun _ => lacks,
        ⟨fun none => absurd none remaining, fun _ => inUse.startOff some, fun _ => ?_,
          fun _ => ?_, fun _ => ?_⟩⟩
      · change P.stores p' ++ Stores.placed (TaggedDma.wordAddr (P.next p' writeTag)) _ = _
        rw [same, next]
        exact stored
      · rw [grown, Nat.add_comm, TaggedDma.wordAddr_add, ← inUse.hostOff some]
        rfl
      · rw [grown, if_neg more, ← count]
        have bound := log.buffer.2.isLt
        bv_omega
      · rw [grown, after]
        change current.length + 8 + (m.dmaWriteLeftWords.toNat - 8) = log.buffer.2.toNat / 16
        omega
  next => cases fires

/-- The burst of a flush ends the buffer in use. -/
theorem Inv.genPcieFlush {call : Option DmaWriteCall} (inv : Inv P m p log reports current)
    (room : m.qcount.toNat ≤ m.dmaWriteLeftWords.toNat)
    (fires : m.genPcieFlush = some (m', call)) (accepted : P.accept p call = some p')
    : ∃ reports' current',
        Inv P m' p' { log with requests := log.requests ++ log.requested call }
          reports' current' := by
  unfold DMAWriteHelper.genPcieFlush at fires
  split at fires
  next ready =>
    obtain ⟨idle, positive, few, flush⟩ := ready
    obtain ⟨⟨writeTag, dmaWriteFreeTagQ⟩, free, fires⟩ := Option.bind_eq_some_iff.mp fires
    obtain ⟨writeDoneQ, reported, ⟨⟩⟩ := Option.bind_eq_some_iff.mp fires
    have some : m.dmaWriteLeftWords ≠ 0 := by
      rintro zero
      rw [zero] at positive
      exact absurd positive (BitVec.lt_irrefl 0)
    have all : m.writeBufferDataQ.items.take m.qcount.toNat = m.writeBufferDataQ.items := by
      rw [inv.counted, List.take_length]
    have stored := inv.stored_burst idle some m.writeBufferDataQ.items
    have written := inv.written_burst idle m.qcount.toNat
    have request (words : BitVec 10) := inv.request some words
    obtain ⟨inside, messages, fits, _, here, counted, _, _, inUse⟩ := inv
    have count := inUse.count some
    have left := inUse.left some
    have total : (current ++ m.writeBufferDataQ.items).length
        = current.length + m.qcount.toNat := by
      rw [List.length_append, counted]
    have rest : m.writeBufferDataQ.items.drop m.qcount.toNat = [] := by
      rw [counted, List.drop_length]
    have few' : m.qcount.toNat ≤ 8 := few
    have bound := log.buffer.2.isLt
    have narrow : (m.qcount.setWidth 10).toNat = m.qcount.toNat := by
      rw [BitVec.toNat_setWidth]
      omega
    -- with no word left nothing is requested, and the tag stays taken
    have outcome : P.stores p' = P.stores p
        ∧ (0 < m.qcount.toNat
          → P.next p' writeTag = m.dmaWriteHostOff ∧ P.lacks p' writeTag = m.qcount.toNat)
        ∧ ∀ w ∈ log.requested (if 0 < m.qcount
            then .some (.dmaWriteReq m.dmaWriteHostOff (m.qcount.setWidth 10) writeTag)
            else none), w.Inside := by
      by_cases words : 0 < m.qcount
      · rw [if_pos words] at accepted ⊢
        obtain ⟨same, next, lacks⟩ := P.of_dmaWriteReq accepted
        refine ⟨same, fun _ => ⟨next, lacks.trans narrow⟩, ?_⟩
        intro w member
        rw [List.mem_singleton.mp member]
        refine request _ ?_
        rw [narrow]
        exact room
      · rw [if_neg words] at accepted ⊢
        cases accepted
        exact ⟨rfl, fun positive => absurd positive words, nofun⟩
    obtain ⟨same, issued, requested⟩ := outcome
    refine ⟨reports ++ [⟨true, log.buffer.1, current ++ m.writeBufferDataQ.items⟩], [],
      ?_, ?_, ?_, ?_, ?_, counted, ?_, ?_, ?_⟩
    · intro w member
      exact (List.mem_append.mp member).elim (inside w) (requested w)
    · refine messages_enq messages reported ?_ rfl
      have bytes : (m.dmaCurBufferWriteCnt + m.qcount.setWidth 32).toNat
          = (current ++ m.writeBufferDataQ.items).length := by
        rw [total, ← count, BitVec.toNat_add, BitVec.toNat_setWidth]
        omega
      rw [BufferReport.message, ← message_count bytes, inUse.startOff some]
      rfl
    · intro r member
      rcases List.mem_append.mp member with old | new
      · exact fits r old
      · rw [List.mem_singleton.mp new]
        simp only [total]
        omega
    · rw [written, all, rest, flush]
      simp [BufferReport.calls, DMAWriteHelper.waiting, rest]
    · change P.stores p' ++ Stores.placed (TaggedDma.wordAddr (P.next p' writeTag))
        (m.writeBufferDataQ.items.take m.qcount.toNat) = _
      rw [same, all]
      rcases Nat.eq_zero_or_pos m.qcount.toNat with none | words
      · rw [counted, List.length_eq_zero_iff] at none
        rw [none] at stored ⊢
        refine stored.trans ?_
        simp [BufferReport.stores]
      · rw [(issued words).1]
        refine stored.trans ?_
        simp [BufferReport.stores]
    · exact Nat.le_of_eq counted
    · exact fun words => (issued words).2
    · exact ⟨fun _ => ⟨rfl, rfl⟩, fun none => absurd rfl none, fun none => absurd rfl none,
        fun none => absurd rfl none, fun none => absurd rfl none⟩
  next => cases fires

/-- A word of the burst is sent. -/
theorem Inv.doPcieWrite {call : Option DmaWriteCall} (inv : Inv P m p log reports current)
    (fires : m.doPcieWrite = some (m', call)) (accepted : P.accept p call = some p')
    : Inv P m' p' { log with requests := log.requests ++ log.requested call } reports current := by
  unfold DMAWriteHelper.doPcieWrite at fires
  split at fires
  next busy =>
    obtain ⟨⟨d, writeBufferDataQ⟩, taken, fires⟩ := Option.bind_eq_some_iff.mp fires
    obtain ⟨dmaWriteFreeTagQ, freed, ⟨⟩⟩ := Option.bind_eq_some_iff.mp fires
    have oldest := Fifo.deq_eq_some.mp taken
    have some : 0 < m.dmaCurWriteLeft.toNat := busy
    obtain ⟨inside, messages, fits, written, stored, counted, under, lacks, inUse⟩ := inv
    obtain ⟨same, next, fewer⟩ := P.of_dmaWriteData accepted (by rw [lacks some]; exact some)
    have left : m.dmaCurWriteLeft.toNat = (m.dmaCurWriteLeft - 1).toNat + 1 := by bv_omega
    rw [oldest, left] at under
    refine ⟨?_, messages, fits, ?_, ?_, ?_, Nat.le_of_succ_le_succ under, ?_,
      ⟨inUse.unused, inUse.startOff, inUse.hostOff, inUse.count, inUse.left⟩⟩
    · change ∀ w ∈ log.requests ++ [], w.Inside
      rw [List.append_nil]
      exact inside
    · rw [written, DMAWriteHelper.waiting, oldest, left, List.drop_succ_cons]
      rfl
    · rw [oldest, left, List.take_succ_cons, Stores.placed_cons] at stored
      change P.stores p' ++ Stores.placed (TaggedDma.wordAddr (P.next p' m.dmaCurTag)) _ = _
      rw [same, next, ← stored, List.append_assoc, TaggedDma.wordAddr_zero,
        List.singleton_append]
      simp only [TaggedDma.wordAddr_add]
      rfl
    · rw [oldest, List.length_cons] at counted
      simp only [DMAWriteHelper.qcount] at counted ⊢
      bv_omega
    · intro _
      change P.lacks p' m.dmaCurTag = (m.dmaCurWriteLeft - 1).toNat
      rw [fewer, lacks some]
      omega
  next => cases fires

/-- The next buffer is taken into use. -/
theorem Inv.procHostBuffer (inv : Inv P m p log reports current)
    (fires : m.procHostBuffer = some m')
    : Inv P m' p { log with buffer := log.bufferAfter m .procHostBuffer } reports current := by
  unfold DMAWriteHelper.procHostBuffer at fires
  split at fires
  next unused =>
    obtain ⟨⟨⟨off, bytes⟩, writeBufferQ⟩, taken, ⟨⟩⟩ := Option.bind_eq_some_iff.mp fires
    have first : m.writeBufferQ.first = some (off, bytes) :=
      Fifo.first_eq_some.mpr ⟨_, Fifo.deq_eq_some.mp taken⟩
    obtain ⟨inside, messages, fits, written, stored, counted, under, lacks, inUse⟩ := inv
    obtain ⟨none, rfl⟩ := inUse.unused unused
    have size : (bytes >>> 4).toNat = bytes.toNat / 16 := by
      rw [BitVec.toNat_ushiftRight, Nat.shiftRight_eq_div_pow]
    have buffer : log.bufferAfter m .procHostBuffer = (off, bytes) := by
      simp [bufferAfter, first]
    rw [buffer]
    refine ⟨inside, messages, fits, written, stored, counted, under, lacks,
      ⟨fun _ => ⟨none, rfl⟩, fun _ => rfl, fun _ => ?_, fun _ => ?_, fun _ => ?_⟩⟩
    · exact (TaggedDma.wordAddr_zero off).symm
    · rw [none]
      rfl
    · change 0 + (bytes >>> 4).toNat = bytes.toNat / 16
      omega
  next => cases fires

/-- Every event keeps the invariant. -/
theorem Inv.step {e : DMAWriteHelperEvent} (inv : Inv P m p log reports current)
    (fit : Fits ((m, p), log) e) (fires : DMAWriteHelper.step P (m, p) e = some (m', p'))
    : ∃ reports' current', Inv P m' p' (record (m, p) e log) reports' current' := by
  cases e with
  | rule rule =>
      obtain ⟨⟨next, call⟩, fired, fires⟩ := Option.bind_eq_some_iff.mp fires
      obtain ⟨p'', accepted, ⟨⟩⟩ := Option.bind_eq_some_iff.mp fires
      have recorded : record (m, p) (.rule rule) log = { log with
          buffer := log.bufferAfter m rule
          requests := log.requests ++ log.requested call } := by
        simp [record, fired]
      rw [recorded]
      have quiet : log.requests ++ log.requested none = log.requests := List.append_nil _
      cases rule with
      | relayWriteDone =>
          obtain ⟨_, done, ⟨⟩⟩ := Option.map_eq_some_iff.mp fired
          cases accepted
          rw [quiet]
          exact ⟨reports, current, inv.relayWriteDone done⟩
      | initDmaTagW =>
          obtain ⟨_, done, ⟨⟩⟩ := Option.map_eq_some_iff.mp fired
          cases accepted
          rw [quiet]
          exact ⟨reports, current, inv.initDmaTagW done⟩
      | relayWriteSync =>
          obtain ⟨_, done, ⟨⟩⟩ := Option.map_eq_some_iff.mp fired
          cases accepted
          rw [quiet]
          exact ⟨reports, current, inv.relayWriteSync done⟩
      | genPcieWrite => exact inv.genPcieWrite fit fired accepted
      | genPcieFlush => exact inv.genPcieFlush fit fired accepted
      | doPcieWrite => exact ⟨reports, current, inv.doPcieWrite fired accepted⟩
      | procHostBuffer =>
          obtain ⟨_, done, ⟨⟩⟩ := Option.map_eq_some_iff.mp fired
          cases accepted
          rw [quiet]
          exact ⟨reports, current, inv.procHostBuffer done⟩
  | pcie =>
      obtain ⟨p'', moved, ⟨⟩⟩ := Option.map_eq_some_iff.mp fires
      obtain ⟨same, next, lacked⟩ := P.of_internal moved
      obtain ⟨inside, messages, fits, written, stored, counted, under, lacks, inUse⟩ := inv
      refine ⟨reports, current, inside, messages, fits, written, ?_, counted, under, ?_, inUse⟩
      · rw [same, next]
        exact stored
      · rw [lacked]
        exact lacks
  | addHostBuffer off bytes =>
      obtain ⟨_, added, ⟨⟩⟩ := Option.map_eq_some_iff.mp fires
      obtain ⟨writeBufferQ, put, ⟨⟩⟩ := Option.bind_eq_some_iff.mp added
      obtain ⟨inside, messages, fits, written, stored, counted, under, lacks, inUse⟩ := inv
      exact ⟨reports, current, inside, messages, fits, written, stored, counted, under, lacks,
        ⟨inUse.unused, inUse.startOff, inUse.hostOff, inUse.count, inUse.left⟩⟩
  | write data =>
      obtain ⟨_, called, ⟨⟩⟩ := Option.map_eq_some_iff.mp fires
      obtain ⟨writeSyncQ, put, ⟨⟩⟩ := Option.bind_eq_some_iff.mp called
      obtain ⟨inside, messages, fits, written, stored, counted, under, lacks, inUse⟩ := inv
      refine ⟨reports, current, inside, messages, fits, ?_, stored, counted, under, lacks,
        ⟨inUse.unused, inUse.startOff, inUse.hostOff, inUse.count, inUse.left⟩⟩
      change log.written ++ [data] = _
      rw [written]
      simp [DMAWriteHelper.waiting, (Fifo.enq_eq_some.mp put).2]
  | bufferDone =>
      obtain ⟨⟨d, next⟩, called, ⟨⟩⟩ := Option.map_eq_some_iff.mp fires
      obtain ⟨⟨entry, writeDoneQ2⟩, taken, ⟨⟩⟩ := Option.bind_eq_some_iff.mp called
      obtain ⟨inside, messages, fits, written, stored, counted, under, lacks, inUse⟩ := inv
      refine ⟨reports, current, inside, ?_, fits, written, stored, counted, under, lacks,
        ⟨inUse.unused, inUse.startOff, inUse.hostOff, inUse.count, inUse.left⟩⟩
      have oldest : m.writeDoneQ2.items = entry :: writeDoneQ2.items := Fifo.deq_eq_some.mp taken
      rw [← messages]
      simp [record, called, DMAWriteHelper.messages, oldest]

end Steps

/-- The invariant holds after reset. -/
theorem Inv.init (P : TaggedDma) : Inv P mkDMAWriteHelper P.init {} [] [] := by
  refine ⟨nofun, rfl, nofun, rfl, ?_, rfl, Nat.le_refl 0, nofun,
    ⟨fun _ => ⟨rfl, rfl⟩, fun some => absurd rfl some, fun some => absurd rfl some,
      fun some => absurd rfl some, fun some => absurd rfl some⟩⟩
  rw [P.stores_init]
  rfl

end WriteHelperLog

-----------------------------------------------------------------------------------------
-- Runs
-----------------------------------------------------------------------------------------

/-- In every run whose bursts fit, the DMA writes lie inside the buffers in use, and the stream
lies in the reported buffers.
-/
theorem writeHelper_places (P : TaggedDma) (s : DMAWriteHelper × P.State) (log : WriteHelperLog)
    (reach : Reach (traced (DMAWriteHelper.step P) WriteHelperLog.record) WriteHelperLog.Fits
      ((mkDMAWriteHelper, P.init), {}) (s, log))
    : (∀ w ∈ log.requests, w.Inside) ∧ ∃ reports current, log.Placed P s reports current := by
  have inv : ∃ reports current, log.Inv P s.1 s.2 reports current := by
    refine reach.invariant (P := fun s => ∃ reports current, s.2.Inv P s.1.1 s.1.2 reports current)
      ⟨[], [], .init P⟩ ?_
    rintro s e s' ⟨reports, current, inv⟩ fit fires
    obtain ⟨fired, recorded⟩ := traced_eq_some.mp fires
    rw [recorded]
    exact inv.step fit fired
  obtain ⟨reports, current, inv⟩ := inv
  exact ⟨inv.inside, reports, current, inv.placed⟩

namespace WriteHelperLog

/-- Host buffers have room for a multiple of 8 words. -/
def WholeBursts {σ : Type} (_ : (DMAWriteHelper × σ) × WriteHelperLog)
    : DMAWriteHelperEvent → Prop
  | .addHostBuffer _ bytes => bytes.toNat / 16 % 8 = 0
  | _ => True

/-- Whole bursts are left of the buffer in use and of those that wait. -/
def Whole (m : DMAWriteHelper) : Prop :=
  m.dmaWriteLeftWords.toNat % 8 = 0
    ∧ ∀ buffer ∈ m.writeBufferQ.items, buffer.2.toNat / 16 % 8 = 0

/-- A rule leaves whole bursts. -/
theorem Whole.fire {m m' : DMAWriteHelper} {rule : DMAWriteHelperRule}
    {call : Option DmaWriteCall} (whole : Whole m) (fires : m.fire rule = some (m', call))
    : Whole m' := by
  cases rule with
  | relayWriteDone =>
      obtain ⟨_, done, ⟨⟩⟩ := Option.map_eq_some_iff.mp fires
      obtain ⟨_, _, done⟩ := Option.bind_eq_some_iff.mp done
      obtain ⟨_, _, ⟨⟩⟩ := Option.bind_eq_some_iff.mp done
      exact whole
  | initDmaTagW =>
      obtain ⟨_, done, ⟨⟩⟩ := Option.map_eq_some_iff.mp fires
      unfold DMAWriteHelper.initDmaTagW at done
      split at done
      next =>
        obtain ⟨_, _, ⟨⟩⟩ := Option.bind_eq_some_iff.mp done
        exact whole
      next => cases done
  | relayWriteSync =>
      obtain ⟨_, done, ⟨⟩⟩ := Option.map_eq_some_iff.mp fires
      unfold DMAWriteHelper.relayWriteSync at done
      split at done
      next =>
        obtain ⟨⟨d, _⟩, _, done⟩ := Option.bind_eq_some_iff.mp done
        cases d with
        | some word =>
            obtain ⟨_, _, ⟨⟩⟩ := Option.bind_eq_some_iff.mp done
            exact whole
        | none =>
            cases done
            exact whole
      next => cases done
  | genPcieWrite =>
      simp only [DMAWriteHelper.fire, DMAWriteHelper.genPcieWrite] at fires
      split at fires
      next ready =>
        obtain ⟨_, _, fires⟩ := Option.bind_eq_some_iff.mp fires
        obtain ⟨_, _, ⟨⟩⟩ := Option.bind_eq_some_iff.mp fires
        have some : 0 < m.dmaWriteLeftWords.toNat := ready.2.1
        have multiple := whole.1
        refine ⟨?_, whole.2⟩
        change (m.dmaWriteLeftWords - 8).toNat % 8 = 0
        bv_omega
      next => cases fires
  | genPcieFlush =>
      simp only [DMAWriteHelper.fire, DMAWriteHelper.genPcieFlush] at fires
      split at fires
      next =>
        obtain ⟨_, _, fires⟩ := Option.bind_eq_some_iff.mp fires
        obtain ⟨_, _, ⟨⟩⟩ := Option.bind_eq_some_iff.mp fires
        exact ⟨rfl, whole.2⟩
      next => cases fires
  | doPcieWrite =>
      simp only [DMAWriteHelper.fire, DMAWriteHelper.doPcieWrite] at fires
      split at fires
      next =>
        obtain ⟨_, _, fires⟩ := Option.bind_eq_some_iff.mp fires
        obtain ⟨_, _, ⟨⟩⟩ := Option.bind_eq_some_iff.mp fires
        exact whole
      next => cases fires
  | procHostBuffer =>
      obtain ⟨_, done, ⟨⟩⟩ := Option.map_eq_some_iff.mp fires
      unfold DMAWriteHelper.procHostBuffer at done
      split at done
      next =>
        obtain ⟨⟨⟨off, bytes⟩, writeBufferQ⟩, taken, ⟨⟩⟩ := Option.bind_eq_some_iff.mp done
        have oldest := Fifo.deq_eq_some.mp taken
        refine ⟨?_, fun buffer member => whole.2 buffer (by simp [oldest, member])⟩
        change (bytes >>> 4).toNat % 8 = 0
        rw [BitVec.toNat_ushiftRight, Nat.shiftRight_eq_div_pow]
        exact whole.2 (off, bytes) (by simp [oldest])
      next => cases done

/-- An event leaves whole bursts. -/
theorem Whole.step {P : TaggedDma} {s s' : DMAWriteHelper × P.State} {log : WriteHelperLog}
    {e : DMAWriteHelperEvent} (whole : Whole s.1) (allowed : WholeBursts (s, log) e)
    (fires : DMAWriteHelper.step P s e = some s')
    : Whole s'.1 := by
  cases e with
  | rule rule =>
      obtain ⟨_, fired, fires⟩ := Option.bind_eq_some_iff.mp fires
      obtain ⟨_, _, ⟨⟩⟩ := Option.bind_eq_some_iff.mp fires
      exact whole.fire fired
  | pcie =>
      obtain ⟨_, _, ⟨⟩⟩ := Option.map_eq_some_iff.mp fires
      exact whole
  | addHostBuffer off bytes =>
      obtain ⟨_, added, ⟨⟩⟩ := Option.map_eq_some_iff.mp fires
      obtain ⟨writeBufferQ, put, ⟨⟩⟩ := Option.bind_eq_some_iff.mp added
      refine ⟨whole.1, ?_⟩
      intro buffer member
      rw [(Fifo.enq_eq_some.mp put).2] at member
      rcases List.mem_append.mp member with old | new
      · exact whole.2 buffer old
      · rw [List.mem_singleton.mp new]
        exact allowed
  | write data =>
      obtain ⟨_, called, ⟨⟩⟩ := Option.map_eq_some_iff.mp fires
      obtain ⟨_, _, ⟨⟩⟩ := Option.bind_eq_some_iff.mp called
      exact whole
  | bufferDone =>
      obtain ⟨_, called, ⟨⟩⟩ := Option.map_eq_some_iff.mp fires
      obtain ⟨_, _, ⟨⟩⟩ := Option.bind_eq_some_iff.mp called
      exact whole

/-- Where whole bursts are left, every burst fits. -/
theorem Whole.fits {P : TaggedDma} {s s' : DMAWriteHelper × P.State} {log : WriteHelperLog}
    {e : DMAWriteHelperEvent} (whole : Whole s.1) (fires : DMAWriteHelper.step P s e = some s')
    : Fits (s, log) e := by
  have multiple := whole.1
  cases e with
  | rule rule =>
      obtain ⟨_, fired, _⟩ := Option.bind_eq_some_iff.mp fires
      cases rule with
      | genPcieWrite =>
          simp only [DMAWriteHelper.fire, DMAWriteHelper.genPcieWrite] at fired
          split at fired
          next ready =>
            have some : 0 < s.1.dmaWriteLeftWords.toNat := ready.2.1
            change 8 ≤ s.1.dmaWriteLeftWords.toNat
            omega
          next => cases fired
      | genPcieFlush =>
          simp only [DMAWriteHelper.fire, DMAWriteHelper.genPcieFlush] at fired
          split at fired
          next ready =>
            have some : 0 < s.1.dmaWriteLeftWords.toNat := ready.2.1
            have few : s.1.qcount.toNat ≤ 8 := ready.2.2.1
            change s.1.qcount.toNat ≤ s.1.dmaWriteLeftWords.toNat
            omega
          next => cases fired
      | relayWriteDone | initDmaTagW | relayWriteSync | doPcieWrite | procHostBuffer => trivial
  | pcie | addHostBuffer _ _ | write _ | bufferDone => trivial

/-- Buffers with room for whole bursts keep every burst inside; induction on the run. -/
theorem reach_fits {P : TaggedDma} {s : (DMAWriteHelper × P.State) × WriteHelperLog}
    (reach : Reach (traced (DMAWriteHelper.step P) record) WholeBursts
      ((mkDMAWriteHelper, P.init), {}) s)
    : Reach (traced (DMAWriteHelper.step P) record) Fits ((mkDMAWriteHelper, P.init), {}) s
      ∧ Whole s.1.1 := by
  induction reach with
  | refl => exact ⟨.refl, rfl, nofun⟩
  | tail _ allowed fires ih =>
      obtain ⟨run, whole⟩ := ih
      obtain ⟨fired, _⟩ := traced_eq_some.mp fires
      exact ⟨run.tail (whole.fits fired) fires, whole.step allowed fired⟩

instance decidableFits {σ : Type} (s : (DMAWriteHelper × σ) × WriteHelperLog)
    (e : DMAWriteHelperEvent) : Decidable (Fits s e) := by
  unfold Fits
  split <;> infer_instance

/-- The words `0` to `n - 1`, each written and moved to the BRAM queue. -/
def writeWords (n : Nat) : List DMAWriteHelperEvent :=
  (List.range n).flatMap (fun i => [.write (some (BitVec.ofNat 128 i)), .rule .relayWriteSync])

end WriteHelperLog

/-- Ten words and a flush: a full burst, a burst of two words, and one message. -/
theorem writeHelper_places_flush
    : ∃ s log,
        Reach (traced (DMAWriteHelper.step TaggedDma.direct) WriteHelperLog.record)
          WriteHelperLog.Fits ((mkDMAWriteHelper, TaggedDma.direct.init), {}) (s, log)
        ∧ log.done = [(true, 4096, 160)]
        ∧ (∀ w ∈ log.requests, w.Inside)
        ∧ ∃ reports current, log.Placed TaggedDma.direct s reports current := by
  obtain ⟨⟨s, log⟩, run, seen⟩ := exec_reach_map
    (traced (DMAWriteHelper.step TaggedDma.direct) WriteHelperLog.record) WriteHelperLog.Fits
    ((mkDMAWriteHelper, TaggedDma.direct.init), {})
    ([.rule .initDmaTagW, .rule .initDmaTagW, .addHostBuffer 4096 256, .rule .procHostBuffer]
      ++ WriteHelperLog.writeWords 10
      ++ [.write none, .rule .relayWriteSync, .rule .genPcieWrite]
      ++ List.replicate 8 (.rule .doPcieWrite)
      ++ [.rule .genPcieFlush, .rule .doPcieWrite, .rule .doPcieWrite, .rule .relayWriteDone,
        .bufferDone])
    (fun s => s.2.done) [(true, 4096, 160)] rfl
  exact ⟨s, log, run, seen, writeHelper_places TaggedDma.direct s log run⟩

/-- With a buffer of one word in use, nine words make a burst of eight words to it. -/
theorem writeHelper_overruns
    : ∃ s log,
        Reach (traced (DMAWriteHelper.step TaggedDma.direct) WriteHelperLog.record) anyEvent
          ((mkDMAWriteHelper, TaggedDma.direct.init), {}) (s, log)
        ∧ ∃ w ∈ log.requests, ¬ w.Inside := by
  obtain ⟨⟨s, log⟩, run, seen⟩ := exec_reach_map
    (traced (DMAWriteHelper.step TaggedDma.direct) WriteHelperLog.record) anyEvent
    ((mkDMAWriteHelper, TaggedDma.direct.init), {})
    ([.rule .initDmaTagW, .addHostBuffer 4096 16, .rule .procHostBuffer]
      ++ WriteHelperLog.writeWords 9 ++ [.rule .genPcieWrite])
    (fun s => s.2.requests) [⟨4096, 16, 4096, 8⟩] rfl
  refine ⟨s, log, run, ⟨4096, 16, 4096, 8⟩, ?_, ?_⟩
  · change log.requests = _ at seen
    rw [seen]
    exact List.mem_singleton_self _
  · rintro ⟨k, _, within⟩
    change 16 * (k + 8) ≤ 16 at within
    omega

end BluespecPcie

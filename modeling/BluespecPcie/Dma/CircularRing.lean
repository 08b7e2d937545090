import BluespecPcie.Dma.CircularQueue
import BluespecPcie.Dma.HostCounts
import BluespecPcie.Dma.RingMemory

/-! `mkDMACircularQueue`: the ring holds the bytes that are not dequeued. -/

namespace BluespecPcie

open Bluespec

-----------------------------------------------------------------------------------------
-- What is kept
-----------------------------------------------------------------------------------------

/-- The words of 16 bytes of an enqueued word, the lower one first. -/
def enqWords (word : BitVec 256) : List DMAWord :=
  [word.setWidth 128, (word >>> 128).setWidth 128]

/-- The words that are not stored yet, the oldest first. -/
def DMACircularQueue.waiting {bufferSz : Nat} (m : DMACircularQueue bufferSz) : List DMAWord :=
  m.enqQ.items ++ m.serializerBuffer.toList ++ m.enqSyncQ.items.flatMap enqWords

namespace CircularLog

/-- The enqueued words, in words of 16 bytes. -/
def words (log : CircularLog) : List DMAWord := log.enqueued.flatMap enqWords

/-- The enqueued words are those stored and behind them those inside, and every byte of the
stream that has landed and is not dequeued is at its position in the ring.
-/
structure Kept (P : TaggedDma) (bufferSz : Nat) (mem : HostMemory)
    (s : CircularSystem P bufferSz) (log : CircularLog) : Prop where
  stream : log.words = (P.stores s.pcie).map Prod.snd ++ s.queue.waiting
  landed : s.landed ≤ (P.stores s.pcie).length
  unread
    : ∀ j,
        log.dequeued ≤ j
        → j < 16 * s.landed
        → (log.words.flatMap wordBytes)[j]?
          = some (storeWords mem ((P.stores s.pcie).take s.landed)
              (BitVec.ofNat 32 (j % 2 ^ bufferSz)))

-----------------------------------------------------------------------------------------
-- The invariant
-----------------------------------------------------------------------------------------

/-- Where the words of the stream are, and what the registers say about it. -/
structure Streamed (P : TaggedDma) {bufferSz : Nat} (m : DMACircularQueue bufferSz) (p : P.State)
    (words stored : List DMAWord) : Prop where
  stores : P.stores p = Stores.placed (ringAddr bufferSz) stored
  stream : words = stored ++ m.waiting
  admitted : m.writeByteCount = BitVec.ofNat 32 (16 * (stored.length + m.enqQ.items.length))
  counted : (m.enqCountUp - m.enqCountDown).toNat = m.enqQ.items.length
  offset : m.writeOffset = BitVec.ofNat 32 (16 * (stored.length + m.dmaCountRemain.toNat))
  whole : (stored.length + m.dmaCountRemain.toNat) % 8 = 0
  burst : m.dmaCountRemain.toNat ≤ 8
  next
    : 0 < m.dmaCountRemain.toNat
      → P.next p m.dmaCurTag = ringAddr bufferSz stored.length
        ∧ P.lacks p m.dmaCurTag = m.dmaCountRemain.toNat
  -- a word stays behind each burst
  behind
    : 0 < stored.length + m.dmaCountRemain.toNat
      → m.dmaCountRemain.toNat < m.enqQ.items.length

/-- The writes of the host that the queue has not processed. -/
def unseen {P : TaggedDma} {bufferSz : Nat} (s : CircularSystem P bufferSz) : List IOWrite :=
  s.queue.userWriteQ.items ++ s.io

/-- The queue has seen the count `seen` of the bytes read, and others are in flight. -/
structure Acked {P : TaggedDma} {bufferSz : Nat} (s : CircularSystem P bufferSz)
    (dequeued seen : Nat) (acks : List Nat) : Prop where
  counts : HostCounts 17 s.queue.readByteCount (unseen s) dequeued seen acks
  host : s.readBytes = BitVec.ofNat 32 dequeued

/-- The invariant of a run. -/
structure Inv (P : TaggedDma) (bufferSz : Nat) (s : CircularSystem P bufferSz)
    (log : CircularLog) (stored : List DMAWord) (seen : Nat) (acks : List Nat) : Prop where
  streamed : Streamed P s.queue s.pcie log.words stored
  acked : Acked s log.dequeued seen acks
  -- the last word was admitted with room for a byte
  room
    : 0 < stored.length + s.queue.enqQ.items.length
      → 16 * (stored.length + s.queue.enqQ.items.length - 1) < seen + 2 ^ bufferSz
  landed : s.landed ≤ stored.length
  dequeued : log.dequeued ≤ 16 * s.landed

/-- What the invariant says about the ring. -/
theorem Inv.kept {P : TaggedDma} {bufferSz : Nat} {s : CircularSystem P bufferSz}
    {log : CircularLog} {stored : List DMAWord} {seen : Nat} {acks : List Nat}
    (low : 7 ≤ bufferSz) (high : bufferSz ≤ 31) (inv : Inv P bufferSz s log stored seen acks)
    (mem : HostMemory)
    : Kept P bufferSz mem s log := by
  obtain ⟨streamed, acked, room, landed, dequeued⟩ := inv
  have length : (P.stores s.pcie).length = stored.length := by
    rw [streamed.stores, Stores.length_placed]
  refine ⟨?_, by rw [length]; exact landed, ?_⟩
  · have same : (P.stores s.pcie).map Prod.snd = stored := by
      rw [streamed.stores]
      refine List.ext_getElem (by simp) ?_
      intro i _ _
      simp [Stores.placed]
    rw [same]
    exact streamed.stream
  · intro j unread below
    have seenRead := acked.counts.seen_le
    have size : (stored.take s.landed).length = s.landed := by
      rw [List.length_take, Nat.min_eq_left landed]
    have recent : 16 * s.landed ≤ j + 2 ^ bufferSz := by
      rcases Nat.eq_zero_or_pos stored.length with none | some
      · omega
      · have behind := streamed.behind (by omega)
        have before := room (by omega)
        omega
    have byte := ring_byte low high mem (stored.take s.landed) (j := j)
      (by rw [size]; exact below) (by rw [size]; exact recent)
    rw [← Stores.take_placed, ← streamed.stores] at byte
    rw [← byte, streamed.stream, List.flatMap_append]
    have inside : j < (stored.flatMap wordBytes).length := by
      simp [List.length_flatMap, Nat.mul_comm]
      omega
    have inside' : j < ((stored.take s.landed).flatMap wordBytes).length := by
      simp [List.length_flatMap, Nat.mul_comm]
      omega
    rw [List.getElem?_append_left inside]
    conv_lhs => rw [← List.take_append_drop s.landed stored, List.flatMap_append]
    rw [List.getElem?_append_left inside']

-----------------------------------------------------------------------------------------
-- Steps of the module
-----------------------------------------------------------------------------------------

/-- What `procUserW` changes. -/
theorem procUserW_cases {bufferSz : Nat} {m m' : DMACircularQueue bufferSz}
    (fires : m.procUserW = some m')
    : ∃ d userWriteQ started cmdbuffer cmdQ,
        m.userWriteQ.items = d :: userWriteQ.items
        ∧ m' = { m with
            userWriteQ
            started
            cmdbuffer
            cmdQ
            readByteCount := if d.toffset = 17 then d.data else m.readByteCount } := by
  obtain ⟨⟨d, userWriteQ⟩, taken, fires⟩ := Option.bind_eq_some_iff.mp fires
  have oldest := Fifo.deq_eq_some.mp taken
  simp only at fires
  split at fires
  next command =>
    obtain ⟨cmdQ, put, ⟨⟩⟩ := Option.bind_eq_some_iff.mp fires
    exact ⟨d, userWriteQ, m.started, m.cmdbuffer, cmdQ, oldest, by simp [command]⟩
  next =>
    split at fires
    next low =>
      cases fires
      have other : d.toffset ≠ 17 := by
        intro same
        rw [same] at low
        exact absurd low (by decide)
      exact ⟨d, userWriteQ, m.started, _, m.cmdQ, oldest, by rw [if_neg other]⟩
    next =>
      split at fires
      next start =>
        cases fires
        exact ⟨d, userWriteQ, true, m.cmdbuffer, m.cmdQ, oldest, by simp [start]⟩
      next =>
        split at fires
        next read =>
          cases fires
          exact ⟨d, userWriteQ, m.started, m.cmdbuffer, m.cmdQ, oldest, by rw [if_pos read]⟩
        next other =>
          cases fires
          exact ⟨d, userWriteQ, m.started, m.cmdbuffer, m.cmdQ, oldest, by rw [if_neg other]⟩

/-- What the host's count goes through. -/
def hostSide {bufferSz : Nat} (m : DMACircularQueue bufferSz) : BitVec 32 × Fifo IOWrite 2 :=
  (m.readByteCount, m.userWriteQ)

section Module

variable {P : TaggedDma} {bufferSz : Nat} {m m' : DMACircularQueue bufferSz} {p p' : P.State}
  {words stored : List DMAWord}

/-- A burst is requested at the address of the next word. -/
theorem Streamed.initDMAWrite {call : Option DmaWriteCall} (high : bufferSz ≤ 31)
    (streamed : Streamed P m p words stored) (fires : m.initDMAWrite = some (m', call))
    (accepted : P.accept p call = some p')
    : Streamed P m' p' words stored ∧ m'.enqQ = m.enqQ ∧ hostSide m' = hostSide m := by
  unfold DMACircularQueue.initDMAWrite at fires
  split at fires
  next ready =>
    obtain ⟨⟨tag, availWriteTagQ⟩, free, ⟨⟩⟩ := Option.bind_eq_some_iff.mp fires
    obtain ⟨idle, full⟩ := ready
    obtain ⟨stores, stream, admitted, counted, offset, whole, burst, _, _⟩ := streamed
    obtain ⟨same, next, lacks⟩ := P.of_dmaWriteReq accepted
    have queued : 8 < m.enqQ.items.length := by
      rw [← counted]
      exact full
    rw [idle] at offset whole
    refine ⟨⟨?_, stream, admitted, counted, ?_, ?_, Nat.le_refl 8, fun _ => ⟨?_, lacks⟩,
      fun _ => queued⟩, rfl, rfl⟩
    · rw [same]
      exact stores
    · change m.writeOffset + 128 = BitVec.ofNat 32 (16 * (stored.length + 8))
      rw [offset, Nat.mul_add 16 _ 8, BitVec.ofNat_add]
      rfl
    · change (stored.length + 8) % 8 = 0
      change (stored.length + 0) % 8 = 0 at whole
      omega
    · refine next.trans ?_
      rw [offset]
      exact offset_ringAddr high stored.length
  next => cases fires

/-- A word of the burst is sent. -/
theorem Streamed.dmaWriteWord {call : Option DmaWriteCall} (low : 7 ≤ bufferSz)
    (streamed : Streamed P m p words stored) (fires : m.dmaWriteWord = some (m', call))
    (accepted : P.accept p call = some p')
    : ∃ d, Streamed P m' p' words (stored ++ [d]) ∧ m.enqQ.items = d :: m'.enqQ.items
        ∧ hostSide m' = hostSide m := by
  unfold DMACircularQueue.dmaWriteWord at fires
  split at fires
  next busy =>
    obtain ⟨⟨d, enqQ⟩, taken, fires⟩ := Option.bind_eq_some_iff.mp fires
    obtain ⟨availWriteTagQ, freed, ⟨⟩⟩ := Option.bind_eq_some_iff.mp fires
    have oldest := Fifo.deq_eq_some.mp taken
    have some : 0 < m.dmaCountRemain.toNat := busy
    obtain ⟨stores, stream, admitted, counted, offset, whole, burst, next, behind⟩ := streamed
    obtain ⟨at_, lacks⟩ := next some
    obtain ⟨same, next', fewer⟩ := P.of_dmaWriteData accepted (by rw [lacks]; exact some)
    have remain : m.dmaCountRemain.toNat = (m.dmaCountRemain - 1).toNat + 1 := by bv_omega
    have queued : m.enqQ.items.length = enqQ.items.length + 1 := by
      rw [oldest, List.length_cons]
    have total : (stored ++ [d]).length = stored.length + 1 := by
      rw [List.length_append, List.length_singleton]
    refine ⟨d, ⟨?_, ?_, ?_, ?_, ?_, ?_, ?_, ?_, ?_⟩, oldest, rfl⟩
    · rw [same, stores, at_, Stores.placed_snoc]
    · rw [stream]
      simp [DMACircularQueue.waiting, oldest]
    · rw [admitted, total, queued]
      congr 2
      change stored.length + (enqQ.items.length + 1) = stored.length + 1 + enqQ.items.length
      omega
    · rw [queued] at counted
      change (m.enqCountUp - (m.enqCountDown + 1)).toNat = enqQ.items.length
      bv_omega
    · rw [offset, total, remain]
      congr 2
      change stored.length + ((m.dmaCountRemain - 1).toNat + 1)
        = stored.length + 1 + (m.dmaCountRemain - 1).toNat
      omega
    · change ((stored ++ [d]).length + (m.dmaCountRemain - 1).toNat) % 8 = 0
      omega
    · change (m.dmaCountRemain - 1).toNat ≤ 8
      omega
    · intro more
      change 0 < (m.dmaCountRemain - 1).toNat at more
      refine ⟨?_, ?_⟩
      · refine next'.trans ?_
        rw [at_, total]
        exact ringAddr_succ low (by omega)
      · refine fewer.trans ?_
        change P.lacks p m.dmaCurTag - 1 = (m.dmaCountRemain - 1).toNat
        omega
    · intro _
      have before := behind (by omega)
      change (m.dmaCountRemain - 1).toNat < enqQ.items.length
      omega
  next => cases fires

/-- Half of an enqueued word moves into `enqQ`. -/
theorem Streamed.serializeEnq (streamed : Streamed P m p words stored)
    (fires : m.serializeEnq = some m')
    : Streamed P m' p words stored
      ∧ m'.enqQ.items.length = m.enqQ.items.length + 1
      ∧ m.writeByteCount - m.readByteCount < 1#32 <<< bufferSz
      ∧ hostSide m' = hostSide m := by
  unfold DMACircularQueue.serializeEnq at fires
  split at fires
  next ready =>
    obtain ⟨stores, stream, admitted, counted, offset, whole, burst, next, behind⟩ := streamed
    have admitted' : m.writeByteCount + 16
        = BitVec.ofNat 32 (16 * (stored.length + (m.enqQ.items.length + 1))) := by
      rw [admitted, ← Nat.add_assoc, Nat.mul_add 16 _ 1, BitVec.ofNat_add]
      rfl
    have counted' : (m.enqCountUp + 1 - m.enqCountDown).toNat = m.enqQ.items.length + 1 := by
      have bound := m.enqQ.bounded
      bv_omega
    split at fires
    next up buffered =>
      obtain ⟨enqQ, put, ⟨⟩⟩ := Option.bind_eq_some_iff.mp fires
      have items := (Fifo.enq_eq_some.mp put).2
      have length : enqQ.items.length = m.enqQ.items.length + 1 := by
        rw [items, List.length_append, List.length_singleton]
      refine ⟨⟨stores, ?_, ?_, ?_, offset, whole, burst, next, ?_⟩, length, ready.2, rfl⟩
      · rw [stream]
        simp [DMACircularQueue.waiting, items, buffered]
      · rw [length]
        exact admitted'
      · rw [length]
        exact counted'
      · exact fun some => by rw [length]; exact Nat.lt_succ_of_lt (behind some)
    next buffered =>
      obtain ⟨⟨d, enqSyncQ⟩, taken, fires⟩ := Option.bind_eq_some_iff.mp fires
      obtain ⟨enqQ, put, ⟨⟩⟩ := Option.bind_eq_some_iff.mp fires
      have items := (Fifo.enq_eq_some.mp put).2
      have length : enqQ.items.length = m.enqQ.items.length + 1 := by
        rw [items, List.length_append, List.length_singleton]
      refine ⟨⟨stores, ?_, ?_, ?_, offset, whole, burst, next, ?_⟩, length, ready.2, rfl⟩
      · rw [stream]
        simp [DMACircularQueue.waiting, items, buffered, Fifo.deq_eq_some.mp taken, enqWords]
      · rw [length]
        exact admitted'
      · rw [length]
        exact counted'
      · exact fun some => by rw [length]; exact Nat.lt_succ_of_lt (behind some)
  next => cases fires

end Module

-----------------------------------------------------------------------------------------
-- Counts of read bytes
-----------------------------------------------------------------------------------------

section Counts

variable {P : TaggedDma} {bufferSz : Nat} {s s' : CircularSystem P bufferSz}
  {dequeued seen : Nat} {acks : List Nat}

/-- A step that leaves the host's side of the queue leaves the counts. -/
theorem Acked.of_hostSide (acked : Acked s dequeued seen acks)
    {queue : DMACircularQueue bufferSz} (same : hostSide queue = hostSide s.queue)
    (pcie : P.State) (landed : Nat)
    : Acked { s with queue, pcie, landed } dequeued seen acks := by
  obtain ⟨read, writes⟩ := Prod.mk.injEq .. ▸ same
  refine ⟨?_, acked.host⟩
  rw [unseen, writes, read]
  exact acked.counts

/-- A write is received; the counts stay in their order. -/
theorem Acked.getWriteReq (acked : Acked s dequeued seen acks)
    (fires : s.getWriteReq = some s')
    : Acked s' dequeued seen acks := by
  unfold CircularSystem.getWriteReq at fires
  split at fires
  next => cases fires
  next d io sent =>
    obtain ⟨queue, received, ⟨⟩⟩ := Option.map_eq_some_iff.mp fires
    obtain ⟨userWriteQ, put, ⟨⟩⟩ := Option.bind_eq_some_iff.mp received
    have counts := acked.counts
    refine ⟨?_, acked.host⟩
    rw [unseen, (Fifo.enq_eq_some.mp put).2, List.append_assoc]
    rw [unseen, sent] at counts
    exact counts

/-- A write is processed; a count that is seen is no lower than the one before. -/
theorem Acked.procUserW {queue : DMACircularQueue bufferSz} (acked : Acked s dequeued seen acks)
    (fires : s.queue.procUserW = some queue)
    : ∃ seen' acks', Acked { s with queue } dequeued seen' acks' ∧ seen ≤ seen' := by
  obtain ⟨d, userWriteQ, started, cmdbuffer, cmdQ, oldest, rfl⟩ := procUserW_cases fires
  obtain ⟨counts, host⟩ := acked
  rw [unseen, oldest, List.cons_append] at counts
  obtain ⟨seen', acks', counts', more⟩ := counts.process
  exact ⟨seen', acks', ⟨counts', host⟩, more⟩

/-- The host dequeues and sends its count, the highest so far. -/
theorem Acked.deq (acked : Acked s dequeued seen acks) (bytes : BitVec 32)
    : Acked { s with
        readBytes := s.readBytes + bytes
        io := s.io ++ [⟨17 * 4, s.readBytes + bytes⟩] }
      (dequeued + bytes.toNat) seen (acks ++ [dequeued + bytes.toNat]) := by
  have total : s.readBytes + bytes = BitVec.ofNat 32 (dequeued + bytes.toNat) := by
    rw [acked.host, BitVec.ofNat_add, BitVec.ofNat_toNat, BitVec.setWidth_eq]
  have word : ((17 * 4 : BitVec 20) >>> 2).setWidth 8 = (17 : BitVec 8) := by decide
  refine ⟨?_, total⟩
  rw [unseen, ← List.append_assoc]
  exact (acked.counts.later (Nat.le_add_right _ _)).send word total

/-- A host write of another word leaves the counts. -/
theorem Acked.userWriteWord (acked : Acked s dequeued seen acks) {d : IOWrite}
    (other : d.toffset ≠ 17)
    : Acked { s with io := s.io ++ [d] } dequeued seen acks := by
  refine ⟨?_, acked.host⟩
  rw [unseen, ← List.append_assoc]
  exact acked.counts.other other

end Counts

-----------------------------------------------------------------------------------------
-- Runs
-----------------------------------------------------------------------------------------

section Steps

variable {P : TaggedDma} {bufferSz : Nat} {s s' : CircularSystem P bufferSz} {log : CircularLog}
  {stored : List DMAWord} {seen : Nat} {acks : List Nat}

/-- A word is admitted only with room for a byte of it. -/
theorem Inv.serializeEnq (high : bufferSz ≤ 31) (inv : Inv P bufferSz s log stored seen acks)
    {queue : DMACircularQueue bufferSz} (fires : s.queue.serializeEnq = some queue)
    : Inv P bufferSz { s with queue } log stored seen acks := by
  obtain ⟨streamed, acked, room, landed, dequeued⟩ := inv
  obtain ⟨streamed', more, allowed, same⟩ := streamed.serializeEnq fires
  have seenRead := acked.counts.seen_le
  have ring : 2 ^ bufferSz ≤ 2 ^ 31 := Nat.pow_le_pow_right (by decide) high
  have size : (1#32 <<< bufferSz).toNat = 2 ^ bufferSz := by
    rw [BitVec.toNat_shiftLeft, BitVec.toNat_ofNat, Nat.shiftLeft_eq,
      Nat.mod_eq_of_lt (a := 1) (by decide), Nat.one_mul, Nat.mod_eq_of_lt (by omega)]
  have near : 16 * (stored.length + s.queue.enqQ.items.length) - seen < 2 ^ 32 := by
    rcases Nat.eq_zero_or_pos (stored.length + s.queue.enqQ.items.length) with none | some
    · omega
    · have last := room some
      omega
  have less : 16 * (stored.length + s.queue.enqQ.items.length) - seen < 2 ^ bufferSz := by
    rw [← count_between (by omega) near, ← streamed.admitted, ← acked.counts.last, ← size]
    exact allowed
  refine ⟨streamed', acked.of_hostSide same _ _, ?_, landed, dequeued⟩
  intro _
  change 16 * (stored.length + queue.enqQ.items.length - 1) < seen + 2 ^ bufferSz
  rw [more]
  omega

/-- Every event keeps the invariant. -/
theorem Inv.step {e : CircularEvent} (low : 7 ≤ bufferSz) (high : bufferSz ≤ 31)
    (inv : Inv P bufferSz s log stored seen acks) (proper : Proper (s, log) e)
    (fires : s.step e = some s')
    : ∃ stored' seen' acks', Inv P bufferSz s' (record s e log) stored' seen' acks' := by
  cases e with
  | getWriteReq =>
      have acked := inv.acked.getWriteReq fires
      simp only [CircularSystem.step, CircularSystem.getWriteReq] at fires
      split at fires
      next => cases fires
      next =>
        obtain ⟨queue, received, ⟨⟩⟩ := Option.map_eq_some_iff.mp fires
        obtain ⟨userWriteQ, put, ⟨⟩⟩ := Option.bind_eq_some_iff.mp received
        obtain ⟨streamed, _, room, landed, dequeued⟩ := inv
        obtain ⟨stores, stream, admitted, counted, offset, whole, burst, next, behind⟩ := streamed
        exact ⟨stored, seen, acks,
          ⟨stores, stream, admitted, counted, offset, whole, burst, next, behind⟩, acked, room,
          landed, dequeued⟩
  | procUserW =>
      obtain ⟨queue, processed, ⟨⟩⟩ := Option.map_eq_some_iff.mp fires
      obtain ⟨streamed, acked, room, landed, dequeued⟩ := inv
      obtain ⟨seen', acks', acked', later⟩ := acked.procUserW processed
      obtain ⟨d, userWriteQ, started, cmdbuffer, cmdQ, _, rfl⟩ := procUserW_cases processed
      obtain ⟨stores, stream, admitted, counted, offset, whole, burst, next, behind⟩ := streamed
      refine ⟨stored, seen', acks',
        ⟨stores, stream, admitted, counted, offset, whole, burst, next, behind⟩, acked', ?_,
        landed, dequeued⟩
      exact fun some => Nat.lt_of_lt_of_le (room some) (Nat.add_le_add_right later _)
  | fillAvailWriteTag =>
      obtain ⟨queue, filled, ⟨⟩⟩ := Option.map_eq_some_iff.mp fires
      unfold DMACircularQueue.fillAvailWriteTag at filled
      split at filled
      next =>
        obtain ⟨availWriteTagQ, put, ⟨⟩⟩ := Option.bind_eq_some_iff.mp filled
        obtain ⟨streamed, acked, room, landed, dequeued⟩ := inv
        obtain ⟨stores, stream, admitted, counted, offset, whole, burst, next, behind⟩ := streamed
        exact ⟨stored, seen, acks,
          ⟨stores, stream, admitted, counted, offset, whole, burst, next, behind⟩,
          acked.of_hostSide (by rfl) _ _, room, landed, dequeued⟩
      next => cases filled
  | initDMAWrite =>
      obtain ⟨⟨queue, call⟩, fired, fires⟩ := Option.bind_eq_some_iff.mp fires
      obtain ⟨pcie, accepted, ⟨⟩⟩ := Option.bind_eq_some_iff.mp fires
      obtain ⟨streamed, acked, room, landed, dequeued⟩ := inv
      obtain ⟨streamed', queued, same⟩ := streamed.initDMAWrite high fired accepted
      refine ⟨stored, seen, acks, streamed', acked.of_hostSide same _ _, ?_, landed, dequeued⟩
      rw [queued]
      exact room
  | dmaWriteWord =>
      obtain ⟨⟨queue, call⟩, fired, fires⟩ := Option.bind_eq_some_iff.mp fires
      obtain ⟨pcie, accepted, ⟨⟩⟩ := Option.bind_eq_some_iff.mp fires
      obtain ⟨streamed, acked, room, landed, dequeued⟩ := inv
      obtain ⟨d, streamed', queued, same⟩ := streamed.dmaWriteWord low fired accepted
      have total : (stored ++ [d]).length = stored.length + 1 := by
        rw [List.length_append, List.length_singleton]
      rw [queued, List.length_cons] at room
      refine ⟨stored ++ [d], seen, acks, streamed', acked.of_hostSide same _ _, ?_, ?_, dequeued⟩
      · intro _
        have last := room (by omega)
        change 16 * ((stored ++ [d]).length + queue.enqQ.items.length - 1) < seen + 2 ^ bufferSz
        omega
      · change s.landed ≤ (stored ++ [d]).length
        omega
  | serializeEnq =>
      obtain ⟨queue, fired, ⟨⟩⟩ := Option.map_eq_some_iff.mp fires
      exact ⟨stored, seen, acks, inv.serializeEnq high fired⟩
  | pcie =>
      obtain ⟨pcie, moved, ⟨⟩⟩ := Option.map_eq_some_iff.mp fires
      obtain ⟨same, sameNext, sameLacks⟩ := P.of_internal moved
      obtain ⟨streamed, acked, room, landed, dequeued⟩ := inv
      obtain ⟨stores, stream, admitted, counted, offset, whole, burst, next, behind⟩ := streamed
      refine ⟨stored, seen, acks,
        ⟨?_, stream, admitted, counted, offset, whole, burst, ?_, behind⟩,
        acked.of_hostSide (by rfl) _ _, room, landed, dequeued⟩
      · rw [same]
        exact stores
      · rw [sameNext, sameLacks]
        exact next
  | land =>
      simp only [CircularSystem.step] at fires
      split at fires
      next more =>
        cases fires
        obtain ⟨streamed, acked, room, landed, dequeued⟩ := inv
        rw [streamed.stores, Stores.length_placed] at more
        refine ⟨stored, seen, acks, streamed, acked.of_hostSide (by rfl) _ _, room, more, ?_⟩
        change log.dequeued ≤ 16 * (s.landed + 1)
        omega
      next => cases fires
  | getCmd =>
      obtain ⟨⟨cmd, queue⟩, called, ⟨⟩⟩ := Option.map_eq_some_iff.mp fires
      obtain ⟨⟨_, cmdQ⟩, taken, ⟨⟩⟩ := Option.bind_eq_some_iff.mp called
      obtain ⟨streamed, acked, room, landed, dequeued⟩ := inv
      obtain ⟨stores, stream, admitted, counted, offset, whole, burst, next, behind⟩ := streamed
      exact ⟨stored, seen, acks,
        ⟨stores, stream, admitted, counted, offset, whole, burst, next, behind⟩,
        acked.of_hostSide (by rfl) _ _, room, landed, dequeued⟩
  | enq word =>
      obtain ⟨queue, called, ⟨⟩⟩ := Option.map_eq_some_iff.mp fires
      obtain ⟨enqSyncQ, put, ⟨⟩⟩ := Option.bind_eq_some_iff.mp called
      obtain ⟨streamed, acked, room, landed, dequeued⟩ := inv
      obtain ⟨stores, stream, admitted, counted, offset, whole, burst, next, behind⟩ := streamed
      refine ⟨stored, seen, acks,
        ⟨stores, ?_, admitted, counted, offset, whole, burst, next, behind⟩,
        acked.of_hostSide (by rfl) _ _, room, landed, dequeued⟩
      change (log.enqueued ++ [word]).flatMap enqWords = _
      rw [List.flatMap_append]
      change log.words ++ _ = _
      rw [stream]
      simp [DMACircularQueue.waiting, (Fifo.enq_eq_some.mp put).2]
  | deq bytes =>
      cases fires
      obtain ⟨streamed, acked, room, landed, dequeued⟩ := inv
      exact ⟨stored, seen, acks ++ [log.dequeued + bytes.toNat], streamed, acked.deq bytes, room,
        landed, proper⟩
  | userWriteWord addr data =>
      cases fires
      obtain ⟨streamed, acked, room, landed, dequeued⟩ := inv
      exact ⟨stored, seen, acks, streamed, acked.userWriteWord proper, room, landed, dequeued⟩

end Steps

/-- The invariant holds before the host constructs its queue. -/
theorem Inv.init (P : TaggedDma) (bufferSz : Nat)
    : Inv P bufferSz (CircularSystem.init P bufferSz) {} [] 0 [] := by
  have streamed : Streamed P (mkDMACircularQueue bufferSz) P.init [] [] :=
    ⟨P.stores_init, rfl, rfl, by simp [mkDMACircularQueue], rfl, rfl, Nat.zero_le 8, nofun, nofun⟩
  exact ⟨streamed, ⟨.init 17, rfl⟩, nofun, Nat.le_refl 0, Nat.le_refl 0⟩

instance decidableProper {P : TaggedDma} {bufferSz : Nat}
    (s : CircularSystem P bufferSz × CircularLog) (e : CircularEvent)
    : Decidable (Proper s e) := by
  unfold Proper
  split <;> infer_instance

end CircularLog

namespace CircularLog

/-- Words that are enqueued and admitted. -/
def takeIn (n : Nat) : List CircularEvent :=
  (List.range n).flatMap (fun i => [.enq (BitVec.ofNat 256 i), .serializeEnq, .serializeEnq])

/-- A burst whose words land. -/
def burst : List CircularEvent :=
  .initDMAWrite :: (List.replicate 8 [.dmaWriteWord, .land]).flatten

end CircularLog

/-- In every run the ring holds the bytes that have landed and are not dequeued. -/
theorem circularQueue_keeps (P : TaggedDma) (bufferSz : Nat) (low : 7 ≤ bufferSz)
    (high : bufferSz ≤ 31) (mem : HostMemory) (s : CircularSystem P bufferSz) (log : CircularLog)
    (reach : Reach (traced CircularSystem.step CircularLog.record) CircularLog.Proper
      (CircularSystem.init P bufferSz, {}) (s, log))
    : log.Kept P bufferSz mem s := by
  have inv : ∃ stored seen acks, log.Inv P bufferSz s stored seen acks := by
    refine reach.invariant (P := fun s => ∃ stored seen acks, s.2.Inv P bufferSz s.1 stored seen
      acks) ⟨[], 0, [], .init P bufferSz⟩ ?_
    rintro s e s' ⟨stored, seen, acks, inv⟩ proper fires
    obtain ⟨fired, recorded⟩ := traced_eq_some.mp fires
    rw [recorded]
    exact inv.step low high proper fired
  obtain ⟨stored, seen, acks, inv⟩ := inv
  exact inv.kept low high mem

/-- A ring of 256 bytes that is written past its end: 128 bytes are unread at its start. -/
theorem circularQueue_keeps_wrap
    : ∃ s log,
        Reach (traced CircularSystem.step CircularLog.record) CircularLog.Proper
          (CircularSystem.init TaggedDma.direct 8, {}) (s, log)
        ∧ (log.dequeued, s.landed) = (256, 24)
        ∧ log.Kept TaggedDma.direct 8 (fun _ => 0) s := by
  obtain ⟨⟨s, log⟩, run, seen⟩ := exec_reach_map
    (traced CircularSystem.step CircularLog.record) CircularLog.Proper
    (CircularSystem.init TaggedDma.direct 8, {})
    ([.userWriteWord 64 0, .getWriteReq, .procUserW, .fillAvailWriteTag]
      ++ CircularLog.takeIn 8 ++ CircularLog.burst ++ [.deq 128, .getWriteReq, .procUserW]
      ++ CircularLog.takeIn 4 ++ CircularLog.burst ++ [.deq 128, .getWriteReq, .procUserW]
      ++ CircularLog.takeIn 4 ++ CircularLog.burst)
    (fun s => (s.2.dequeued, s.1.landed)) (256, 24) rfl
  exact ⟨s, log, run, seen,
    circularQueue_keeps TaggedDma.direct 8 (by decide) (by decide) (fun _ => 0) s log run⟩

end BluespecPcie

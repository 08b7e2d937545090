import BluespecPcie.Bluespec.Simulation
import BluespecPcie.Host.Bluesim

/-! The shared memory of a simulation as three queues and a buffer: as long as DMA stays inside the
buffer, the one array of words is as good as that.
-/

namespace BluespecPcie

open Bluespec

-----------------------------------------------------------------------------------------
-- Queues and a buffer
-----------------------------------------------------------------------------------------

/-- Three queues, oldest first, and the words of the DMA buffer. -/
structure ShmQueues where
  fifo : ShmPort → List (BitVec 64)
  words : Nat → BitVec 64

/-- The places in a queue. -/
def shmPlaces : Nat := 1024 - 3 - 1

namespace ShmQueues

/-- One queue replaced. -/
def withFifo (q : ShmQueues) (port : ShmPort) (items : List (BitVec 64)) : ShmQueues :=
  { q with fifo := Function.update q.fifo port items }

@[simp] theorem withFifo_words (q : ShmQueues) (port : ShmPort) (items : List (BitVec 64))
    : (q.withFifo port items).words = q.words := rfl

@[simp] theorem withFifo_same (q : ShmQueues) (port : ShmPort) (items : List (BitVec 64))
    : (q.withFifo port items).fifo port = items :=
  Function.update_self ..

theorem withFifo_other {port other : ShmPort} (differ : other ≠ port) (q : ShmQueues)
    (items : List (BitVec 64))
    : (q.withFifo port items).fifo other = q.fifo other :=
  Function.update_of_ne differ ..

end ShmQueues

/-- A push on a full queue is dropped, and a pop of an empty one does nothing. -/
def shmQueues : SharedMemory ShmQueues where
  push port q v :=
    if (q.fifo port).length = shmPlaces then q else q.withFifo port (q.fifo port ++ [v])
  pop port q := q.withFifo port (q.fifo port).tail
  tail port q := (q.fifo port).headD 0
  empty port q := (q.fifo port).isEmpty
  full port q := (q.fifo port).length == shmPlaces
  load q i := q.words i
  store q i v := { q with words := Function.update q.words i v }

/-- The words of the array that are a queue's, and the others, which are the buffer's. -/
structure ShmWords.Models (m : ShmWords) (q : ShmQueues) : Prop where
  queues : ∀ port, ShmFifo.Stands 1024 (m.behind port.base) (q.fifo port)
  words : ∀ i < dma_buffer_size / 8, m i = q.words i

-----------------------------------------------------------------------------------------
-- Objects apart
-----------------------------------------------------------------------------------------

namespace ShmFifo

variable {size : Nat} {m m' : ShmWords} {items : List (BitVec 64)}

/-- What words stand for depends on those of the object only. -/
theorem Stands.congr (stands : Stands size m items) (large : 5 ≤ size)
    (same : ∀ i < size, m' i = m i)
    : Stands size m' items := by
  have head : headidx m' = headidx m := same 0 (by omega)
  have tail : tailidx m' = tailidx m := same 1 (by omega)
  refine ⟨?_, ?_, ?_, ?_⟩
  · rw [same 2 (by omega)]
    exact stands.magic
  · rw [head]
    exact stands.head_lt
  · rw [tail]
    exact stands.tail_lt
  · rw [head, tail, ← stands.stored]
    refine Ring.stored_congr stands.tail_lt stands.head_lt ?_
    intro i within _
    exact same (3 + i) (by omega)

/-- A push changes words of the object only. -/
theorem Stands.push_outside (stands : Stands size m items) (v : BitVec 64) {i : Nat}
    (outside : size ≤ i)
    : ShmFifo.push (slots size) m v i = m i := by
  have head := stands.head_lt
  unfold ShmFifo.push
  by_cases full : nexthead (slots size) (headidx m) = tailidx m
  · rw [if_pos full]
  · rw [if_neg full, Function.update_of_ne (by omega), Function.update_of_ne (by omega)]

/-- A pop changes one word. -/
theorem pop_outside (n : BitVec 64) {i : Nat} (outside : i ≠ 1) : pop n m i = m i := by
  unfold pop
  by_cases empty : tailidx m = headidx m
  · rw [if_pos empty]
  · rw [if_neg empty]
    split
    next => rw [Function.update_of_ne outside, Function.update_of_ne outside]
    next => rw [Function.update_of_ne outside]

/-- The constructor changes three words. -/
theorem construct_outside {i : Nat} (outside : 3 ≤ i) : construct m i = m i := by
  unfold construct
  split
  next =>
    rw [Function.update_of_ne (by omega), Function.update_of_ne (by omega),
      Function.update_of_ne (by omega)]
  next => rfl

end ShmFifo

namespace ShmPort

/-- The words of two queues are apart. -/
theorem apart {port other : ShmPort} (differ : other ≠ port)
    : other.base + 1024 ≤ port.base ∨ port.base + 1024 ≤ other.base := by
  unfold base
  generalize dma_buffer_size / 8 = words
  cases port <;> cases other <;> first
  | exact absurd rfl differ
  | simp only; omega

/-- The buffer lies in front of the queues. -/
theorem buffer_le (port : ShmPort) : dma_buffer_size / 8 ≤ port.base := by
  unfold base
  generalize dma_buffer_size / 8 = words
  cases port <;> simp only <;> omega

end ShmPort

namespace ShmWords

variable {base i : Nat} {f : ShmWords → ShmWords} {m : ShmWords}

theorem change_below (below : i < base) : m.change base f i = m i := if_pos below

/-- The object itself sees what the method does. -/
theorem behind_change : (m.change base f).behind base = f (m.behind base) := by
  funext i
  rw [behind, change, if_neg (by omega), Nat.add_sub_cancel_left]

/-- A method that keeps to its object changes no word of another. -/
theorem change_apart {port other : ShmPort} (differ : other ≠ port)
    (keeps : ∀ i, 1024 ≤ i → f (m.behind port.base) i = m.behind port.base i)
    (within : i < 1024)
    : (m.change port.base f).behind other.base i = m.behind other.base i := by
  unfold behind change
  split
  next => rfl
  next above =>
    have past : 1024 ≤ other.base + i - port.base := by
      rcases ShmPort.apart differ with before | behind <;> omega
    rw [keeps _ past, behind, Nat.add_sub_cancel' (by omega)]

variable {q : ShmQueues}

/-- A method that keeps to its object changes just one queue. -/
theorem Models.change (models : m.Models q) {port : ShmPort} {items : List (BitVec 64)}
    (keeps : ∀ i, 1024 ≤ i → f (m.behind port.base) i = m.behind port.base i)
    (stands : ShmFifo.Stands 1024 (f (m.behind port.base)) items)
    : (m.change port.base f).Models (q.withFifo port items) := by
  constructor
  case queues =>
    intro other
    by_cases same : other = port
    · rw [same, behind_change, ShmQueues.withFifo_same]
      exact stands
    · rw [ShmQueues.withFifo_other same]
      exact (models.queues other).congr (by decide)
        (fun i within => change_apart same keeps within)
  case words =>
    intro i within
    rw [change_below (Nat.lt_of_lt_of_le within port.buffer_le)]
    exact models.words i within

/-- The queue is full when the object says so. -/
theorem Models.full (models : m.Models q) (port : ShmPort)
    : shmWords.full port m = shmQueues.full port q := by
  have exact_ := (models.queues port).full_iff (by decide) (by decide)
  simp only [shmWords, shmQueues, ShmFifo.full, exact_, shmPlaces]
  rfl

theorem Models.empty (models : m.Models q) (port : ShmPort)
    : shmWords.empty port m = shmQueues.empty port q := by
  have exact_ := (models.queues port).empty_iff
  simp only [shmWords, shmQueues, ShmFifo.empty, exact_]
  cases q.fifo port <;> rfl

theorem Models.tail (models : m.Models q) {port : ShmPort} (some : q.fifo port ≠ [])
    : shmWords.tail port m = shmQueues.tail port q := by
  obtain ⟨v, rest, items⟩ := List.exists_cons_of_ne_nil some
  have stands := models.queues port
  rw [items] at stands
  simp only [shmWords, shmQueues, items, List.headD_cons]
  exact stands.tail_eq

theorem Models.push (models : m.Models q) (port : ShmPort) (v : BitVec 64)
    : (shmWords.push port m v).Models (shmQueues.push port q v) := by
  have stands := models.queues port
  have keeps (i : Nat) (outside : 1024 ≤ i) := stands.push_outside v outside
  have exact_ := stands.full_iff (by decide) (by decide)
  simp only [shmWords, shmQueues]
  by_cases full : (q.fifo port).length = shmPlaces
  · rw [if_pos full]
    have dropped : ShmFifo.push (ShmFifo.slots 1024) (m.behind port.base) v
        = m.behind port.base := if_pos (exact_.mpr full)
    have same : q.withFifo port (q.fifo port) = q := by
      rw [ShmQueues.withFifo, Function.update_eq_self]
    rw [← same]
    refine models.change keeps ?_
    rw [dropped]
    exact stands
  · rw [if_neg full]
    exact models.change keeps (stands.push (by decide) (by decide) v (mt exact_.mp full))

theorem Models.pop (models : m.Models q) (port : ShmPort)
    : (shmWords.pop port m).Models (shmQueues.pop port q) := by
  have stands := models.queues port
  refine models.change (fun i outside => ShmFifo.pop_outside _ (by omega)) ?_
  cases items : q.fifo port with
  | nil =>
      rw [items] at stands
      have none : ShmFifo.pop (ShmFifo.slots 1024) (m.behind port.base) = m.behind port.base :=
        if_pos (stands.empty_iff.mpr rfl)
      rw [none]
      exact stands
  | cons v rest =>
      rw [items] at stands
      exact stands.pop (by decide) (by decide)

theorem Models.store (models : m.Models q) {i : Nat} (inside : i < dma_buffer_size / 8)
    (v : BitVec 64)
    : (shmWords.store m i v).Models (shmQueues.store q i v) := by
  constructor
  case queues =>
    intro port
    refine (models.queues port).congr (by decide) ?_
    intro j _
    have behind_ := port.buffer_le
    exact Function.update_of_ne (by omega) ..
  case words =>
    intro j within
    simp only [shmWords, shmQueues, Function.update_apply, models.words j within]

/-- A method that changes nothing in the object changes no word. -/
theorem change_eq_self (same : f (m.behind base) = m.behind base) : m.change base f = m := by
  funext i
  unfold change
  split
  next => rfl
  next above => rw [same, behind, Nat.add_sub_cancel' (by omega)]

/-- On new memory the first constructions leave empty queues and a buffer of zeros. -/
theorem models_construct : (construct (fun _ => 0)).Models ⟨fun _ => [], fun _ => 0⟩ := by
  let m0 : ShmWords := fun _ => 0
  let m1 := m0.change ShmPort.outfifo.base ShmFifo.construct
  let m2 := m1.change ShmPort.infifo.base ShmFifo.construct
  have keeps (m : ShmWords) (i : Nat) (outside : 1024 ≤ i) : ShmFifo.construct m i = m i :=
    ShmFifo.construct_outside (by omega)
  have fresh (m : ShmWords) (zero : m 2 = 0) : ShmFifo.Stands 1024 (ShmFifo.construct m) [] := by
    refine ShmFifo.stands_construct (by decide) ?_
    rw [zero]
    decide
  have in1 : m1.behind ShmPort.infifo.base 2 = 0 :=
    change_apart (by decide) (keeps _) (by decide)
  have interrupt1 : m1.behind ShmPort.interruptfifo.base 2 = 0 :=
    change_apart (by decide) (keeps _) (by decide)
  have interrupt2 : m2.behind ShmPort.interruptfifo.base 2 = 0 :=
    (change_apart (by decide) (keeps _) (by decide)).trans interrupt1
  have out1 : ShmFifo.Stands 1024 (m1.behind ShmPort.outfifo.base) [] := by
    rw [behind_change]
    exact fresh _ rfl
  have out2 : ShmFifo.Stands 1024 (m2.behind ShmPort.outfifo.base) [] :=
    out1.congr (by decide) (fun i within => change_apart (by decide) (keeps _) within)
  have in2 : ShmFifo.Stands 1024 (m2.behind ShmPort.infifo.base) [] := by
    rw [behind_change]
    exact fresh _ in1
  constructor
  case queues =>
    intro port
    cases port with
    | outfifo =>
        exact out2.congr (by decide) (fun i within => change_apart (by decide) (keeps _) within)
    | infifo =>
        exact in2.congr (by decide) (fun i within => change_apart (by decide) (keeps _) within)
    | interruptfifo =>
        rw [construct, behind_change]
        exact fresh _ interrupt2
  case words =>
    intro i within
    have below (port : ShmPort) : i < port.base := Nat.lt_of_lt_of_le within port.buffer_le
    rw [construct, change_below (below _), change_below (below _), change_below (below _)]

/-- Constructing the objects again changes nothing. -/
theorem Models.construct (models : m.Models q) : m.construct = m := by
  have attach (port : ShmPort) : m.change port.base ShmFifo.construct = m :=
    change_eq_self (models.queues port).attach
  rw [ShmWords.construct, attach, attach, attach]

end ShmWords

-----------------------------------------------------------------------------------------
-- Inside the buffer
-----------------------------------------------------------------------------------------

/-- The DMA requests and the stores of an event stay inside the buffer. -/
def BluesimEvent.InBuffer : BluesimEvent → Prop
  | .storeByte i _ => i < dma_buffer_size
  | .dmaWriteReq addr words => addr.toNat + 16 * words.toNat ≤ dma_buffer_size
  | .dmaReadReq addr words => addr.toNat + 16 * words.toNat ≤ dma_buffer_size
  | _ => True

instance (e : BluesimEvent) : Decidable e.InBuffer := by
  cases e with
  | storeByte i _ => exact Nat.decLt i _
  | dmaWriteReq addr words => exact Nat.decLe (addr.toNat + 16 * words.toNat) _
  | dmaReadReq addr words => exact Nat.decLe (addr.toNat + 16 * words.toNat) _
  | _ => exact isTrue trivial

namespace Bluesim

/-- What is left of the DMA requests stays inside the buffer. -/
structure InBuffer {μ : Type} (s : Bluesim μ) : Prop where
  writes
    : s.hw.dmaWriteWordAddr.toNat + s.hw.dmaWriteWordOff.toNat
      + 16 * s.hw.dmaWriteWordCount.toNat ≤ dma_buffer_size
  reads
    : 4 * (s.dma.dmaReadStartAddr.toNat / 4 + s.dma.dmaReadWordsOffset.toNat
      + s.dma.dmaReadWordsRemain.toNat) ≤ dma_buffer_size

/-- The write for the user that a message is. -/
def messageWrite (d : BitVec 64) : Option IOWrite :=
  if (d >>> (32 + 31)).truncate 1 = 0#1 ∧ (d >>> (32 + 24)).truncate 1 = 1#1
      ∧ (d >>> 32).truncate 20 ≥ io_userspace_offset then
    some { addr := (d >>> 32).truncate 20 - io_userspace_offset, data := d.truncate 32 }
  else none

/-- The address of the read that a message is. -/
def messageRead (d : BitVec 64) : Option (BitVec 20) :=
  if (d >>> (32 + 31)).truncate 1 = 0#1 ∧ ¬(d >>> (32 + 24)).truncate 1 = 1#1 then
    some ((d >>> 32).truncate 20)
  else none

section Steps

variable {μ : Type} {mem : SharedMemory μ} {s s' : Bluesim μ}

theorem starts_eq_some {call : SoftwareCall}
    : s.starts call = some s' ↔ s.call = .idle ∧ s' = { s with call } := by
  unfold starts
  by_cases idle : s.call = .idle
  · rw [if_pos idle, Option.some.injEq, eq_comm]
    exact (and_iff_right idle).symm
  · rw [if_neg idle]
    exact ⟨nofun, fun both => absurd both.1 idle⟩

/-- A firing of `receiveDmaRead` takes the next DW, the fourth of which completes a word, or finds
none.
-/
theorem receiveDmaRead_cases (fires : s.receiveDmaRead mem = some s')
    : s.hw.dmaReadWordCount > 0
      ∧ ((s.dma.dmaReadWordsRemain = 0 ∧ s' = s)
        ∨ ∃ word, s.dma.dmaReadWordsRemain > 0
          ∧ word = (mem.bdpiDmaReadData s.memory s.dma).1 ++ s.hw.dmaReadBuffer.extractLsb 127 32
          ∧ ((s.hw.dmaReadBufferOff ≥ 3
              ∧ ∃ dmaReadWordQ, s.hw.dmaReadWordQ.enq word = some dmaReadWordQ
                ∧ s' = { s with
                    dma := (mem.bdpiDmaReadData s.memory s.dma).2
                    hw := { s.hw with
                      dmaReadWordCount := s.hw.dmaReadWordCount - 1
                      dmaReadWordQ
                      dmaReadBufferOff := 0 } })
            ∨ (¬s.hw.dmaReadBufferOff ≥ 3
              ∧ s' = { s with
                  dma := (mem.bdpiDmaReadData s.memory s.dma).2
                  hw := { s.hw with
                    dmaReadBuffer := word
                    dmaReadBufferOff := s.hw.dmaReadBufferOff + 1 } }))) := by
  unfold receiveDmaRead at fires
  by_cases counts : s.hw.dmaReadWordCount > 0
  · refine ⟨counts, ?_⟩
    rw [if_pos counts] at fires
    by_cases ready : s.dma.dmaReadWordsRemain > 0
    · rw [if_pos (show bdpiDmaReadReady s.dma = true from decide_eq_true ready)] at fires
      refine .inr ⟨_, ready, rfl, ?_⟩
      by_cases last : s.hw.dmaReadBufferOff ≥ 3
      · simp only [if_pos last] at fires
        obtain ⟨dmaReadWordQ, put, ⟨⟩⟩ := Option.bind_eq_some_iff.mp fires
        exact .inl ⟨last, dmaReadWordQ, put, rfl⟩
      · simp only [if_neg last] at fires
        cases fires
        exact .inr ⟨last, rfl⟩
    · rw [if_neg (show ¬bdpiDmaReadReady s.dma = true from mt of_decide_eq_true ready)] at fires
      cases fires
      exact .inl ⟨by bv_omega, rfl⟩
  · rw [if_neg counts] at fires
    cases fires

/-- A firing of `receiveIo` takes a message: a write or a read for the user, a read that it answers
itself, or nothing that it acts on.
-/
theorem receiveIo_cases (fires : s.receiveIo mem = some s')
    : (s.hw.ioWriteQ.items.length < 2 ∧ s.hw.ioReadReqQ.items.length < 2)
      ∧ ∃ d memory, mem.bdpiIOData s.memory = (d, memory)
        ∧ ((∃ write ioWriteQ, messageWrite d = some write ∧ messageRead d = none
            ∧ s.hw.ioWriteQ.enq write = some ioWriteQ
            ∧ s' = { s with memory, hw := { s.hw with ioWriteQ } })
          ∨ (∃ addr ioReadReqQ, messageWrite d = none ∧ messageRead d = some addr
            ∧ addr ≥ io_userspace_offset
            ∧ s.hw.ioReadReqQ.enq
                { (default : IOReadReq) with addr := addr - io_userspace_offset } = some ioReadReqQ
            ∧ s' = { s with memory, hw := { s.hw with ioReadReqQ } })
          ∨ (∃ addr, messageWrite d = none ∧ messageRead d = some addr
            ∧ ¬addr ≥ io_userspace_offset
            ∧ s' = { s with
                memory := mem.bdpiIOReadResp memory (0#12 ++ addr ++ 0xc001d00d#32) })
          ∨ (messageWrite d = none ∧ messageRead d = none ∧ s' = { s with memory })) := by
  unfold receiveIo at fires
  by_cases room : s.hw.ioWriteQ.items.length < 2 ∧ s.hw.ioReadReqQ.items.length < 2
  · rw [if_pos room] at fires
    obtain ⟨d, memory, taken⟩ : ∃ d memory, mem.bdpiIOData s.memory = (d, memory) :=
      ⟨_, _, rfl⟩
    rw [taken] at fires
    dsimp only at fires
    refine ⟨room, d, memory, taken, ?_⟩
    unfold messageWrite messageRead
    by_cases ready : (d >>> (32 + 31)).truncate 1 = 0#1
    · rw [if_pos ready] at fires
      by_cases write : (d >>> (32 + 24)).truncate 1 = 1#1
      · rw [if_pos write] at fires
        by_cases user : (d >>> 32).truncate 20 ≥ io_userspace_offset
        · rw [if_pos user] at fires
          obtain ⟨ioWriteQ, put, ⟨⟩⟩ := Option.bind_eq_some_iff.mp fires
          refine .inl ⟨_, ioWriteQ, if_pos ⟨ready, write, user⟩, if_neg ?_, put, rfl⟩
          exact fun read => read.2 write
        · rw [if_neg user] at fires
          cases fires
          refine .inr (.inr (.inr ⟨if_neg ?_, if_neg ?_, rfl⟩))
          · exact fun user' => user user'.2.2
          · exact fun read => read.2 write
      · rw [if_neg write] at fires
        by_cases user : (d >>> 32).truncate 20 ≥ io_userspace_offset
        · rw [if_pos user] at fires
          obtain ⟨ioReadReqQ, put, ⟨⟩⟩ := Option.bind_eq_some_iff.mp fires
          refine .inr (.inl ⟨_, ioReadReqQ, if_neg ?_, if_pos ⟨ready, write⟩, user, put, rfl⟩)
          exact fun write' => write write'.2.1
        · rw [if_neg user] at fires
          cases fires
          refine .inr (.inr (.inl ⟨_, if_neg ?_, if_pos ⟨ready, write⟩, user, rfl⟩))
          exact fun write' => write write'.2.1
    · rw [if_neg ready] at fires
      cases fires
      refine .inr (.inr (.inr ⟨if_neg ?_, if_neg ?_, rfl⟩))
      · exact fun ready' => ready ready'.1
      · exact fun ready' => ready ready'.1
  · rw [if_neg room] at fires
    cases fires

/-- A firing of `relayIOReadResp` answers the oldest request, or finds no room. -/
theorem relayIOReadResp_cases (fires : s.relayIOReadResp mem = some s')
    : ∃ ioreq ioReadReqReturnQ data ioReadReqDataQ,
        s.hw.ioReadReqReturnQ.deq = some (ioreq, ioReadReqReturnQ)
        ∧ s.hw.ioReadReqDataQ.deq = some (data, ioReadReqDataQ)
        ∧ ((mem.full .outfifo s.memory = false
            ∧ s' = { s with
                memory := mem.bdpiIOReadResp s.memory
                  (0#12 ++ (ioreq.addr + io_userspace_offset) ++ data)
                hw := { s.hw with ioReadReqReturnQ, ioReadReqDataQ } })
          ∨ (mem.full .outfifo s.memory = true ∧ s' = s)) := by
  obtain ⟨⟨ioreq, ioReadReqReturnQ⟩, request, later⟩ := Option.bind_eq_some_iff.mp fires
  obtain ⟨⟨data, ioReadReqDataQ⟩, answer, later⟩ := Option.bind_eq_some_iff.mp later
  refine ⟨ioreq, ioReadReqReturnQ, data, ioReadReqDataQ, request, answer, ?_⟩
  dsimp only at later
  cases full : mem.full .outfifo s.memory with
  | false =>
      have ready : mem.bdpiIOReadRespReady s.memory = true := congrArg not full
      rw [if_pos ready] at later
      cases later
      exact .inl ⟨rfl, rfl⟩
  | true =>
      have busy : mem.bdpiIOReadRespReady s.memory = false := congrArg not full
      rw [if_neg (Bool.eq_false_iff.mp busy)] at later
      cases later
      exact .inr ⟨rfl, rfl⟩

/-- The next DW is inside the buffer, and the rest of the read too. -/
theorem InBuffer.next (kept : s.InBuffer) (ready : s.dma.dmaReadWordsRemain > 0)
    : 4 * ((s.dma.dmaReadStartAddr >>> 2) + s.dma.dmaReadWordsOffset).toNat < dma_buffer_size
      ∧ 4 * (s.dma.dmaReadStartAddr.toNat / 4 + (s.dma.dmaReadWordsOffset + 1).toNat
        + (s.dma.dmaReadWordsRemain - 1).toNat) ≤ dma_buffer_size := by
  have reads : 4 * (s.dma.dmaReadStartAddr.toNat / 4 + s.dma.dmaReadWordsOffset.toNat
      + s.dma.dmaReadWordsRemain.toNat) ≤ 4194304 := kept.reads
  change _ < 4194304 ∧ _ ≤ 4194304
  constructor <;> bv_omega

/-- What concerns neither DMA request keeps both. -/
theorem InBuffer.frame (kept : s.InBuffer) (addr : s'.hw.dmaWriteWordAddr = s.hw.dmaWriteWordAddr)
    (off : s'.hw.dmaWriteWordOff = s.hw.dmaWriteWordOff)
    (count : s'.hw.dmaWriteWordCount = s.hw.dmaWriteWordCount) (dma : s'.dma = s.dma)
    : s'.InBuffer := by
  refine ⟨?_, ?_⟩
  · rw [addr, off, count]
    exact kept.writes
  · rw [dma]
    exact kept.reads

/-- Requests that start inside the buffer stay there. -/
theorem InBuffer.step {e : BluesimEvent} (kept : s.InBuffer) (inside : e.InBuffer)
    (fires : s.step mem e = some s')
    : s'.InBuffer := by
  cases e with
  | writeWord | readWord | waitInterrupt =>
      obtain ⟨-, rfl⟩ := starts_eq_some.mp fires
      exact kept.frame rfl rfl rfl rfl
  | software =>
      simp only [Bluesim.step, Bluesim.software] at fires
      split at fires
      case h_1 => cases fires
      all_goals
        try split at fires
        all_goals
          cases fires
          exact kept.frame rfl rfl rfl rfl
  | storeByte i b =>
      simp only [Bluesim.step] at fires
      split at fires
      next =>
        cases fires
        exact kept.frame rfl rfl rfl rfl
      next => cases fires
  | receiveDmaRead =>
      obtain ⟨-, ⟨-, rfl⟩ | ⟨word, ready, -, ⟨-, _, -, rfl⟩ | ⟨-, rfl⟩⟩⟩ :=
        receiveDmaRead_cases fires
      · exact kept
      all_goals exact ⟨kept.writes, (kept.next ready).2⟩
  | receiveIo =>
      obtain ⟨-, d, memory, -, ⟨_, _, -, -, -, rfl⟩ | ⟨_, _, -, -, -, -, rfl⟩ | ⟨_, -, -, -, rfl⟩
        | ⟨-, -, rfl⟩⟩ := receiveIo_cases fires
      all_goals exact kept.frame rfl rfl rfl rfl
  | relayIOReadResp =>
      obtain ⟨_, _, _, _, -, -, ⟨-, rfl⟩ | ⟨-, rfl⟩⟩ := relayIOReadResp_cases fires
      · exact kept.frame rfl rfl rfl rfl
      · exact kept
  | dataReceive | dataReq | dmaReadWord =>
      obtain ⟨⟨_, _⟩, -, ⟨⟩⟩ := Option.bind_eq_some_iff.mp fires
      exact kept.frame rfl rfl rfl rfl
  | dataSend ioreq data =>
      obtain ⟨_, -, later⟩ := Option.bind_eq_some_iff.mp fires
      obtain ⟨_, -, ⟨⟩⟩ := Option.bind_eq_some_iff.mp later
      exact kept.frame rfl rfl rfl rfl
  | dmaWriteReq addr words =>
      simp only [Bluesim.step, Bluesim.dmaWriteReq] at fires
      split at fires
      next =>
        cases fires
        exact ⟨inside, kept.reads⟩
      next => cases fires
  | dmaWriteData data =>
      simp only [Bluesim.step, Bluesim.dmaWriteData] at fires
      split at fires
      next counts =>
        cases fires
        refine ⟨?_, kept.reads⟩
        have writes : s.hw.dmaWriteWordAddr.toNat + s.hw.dmaWriteWordOff.toNat
            + 16 * s.hw.dmaWriteWordCount.toNat ≤ 4194304 := kept.writes
        change s.hw.dmaWriteWordAddr.toNat + (s.hw.dmaWriteWordOff + 16).toNat
            + 16 * (s.hw.dmaWriteWordCount - 1).toNat ≤ 4194304
        bv_omega
      next => cases fires
  | dmaReadReq addr words =>
      simp only [Bluesim.step, Bluesim.dmaReadReq] at fires
      split at fires
      next =>
        cases fires
        refine ⟨kept.writes, ?_⟩
        have fits : addr.toNat + 16 * words.toNat ≤ 4194304 := inside
        change 4 * (addr.toNat / 4 + 0 + (words.setWidth 32 * 4#32).toNat) ≤ 4194304
        have wide : (words.setWidth 32 * 4#32).toNat = 4 * words.toNat := by bv_omega
        omega
      next => cases fires
  | assertInterrupt =>
      simp only [Bluesim.step, Bluesim.assertInterrupt] at fires
      split at fires
      next =>
        cases fires
        exact kept.frame rfl rfl rfl rfl
      next => cases fires

end Steps

end Bluesim

-----------------------------------------------------------------------------------------
-- Simulation
-----------------------------------------------------------------------------------------

namespace ShmQueues

variable {q : ShmQueues} {port other : ShmPort}

/-- A push empties no queue. -/
theorem push_ne_nil (some : q.fifo other ≠ []) (v : BitVec 64)
    : (shmQueues.push port q v).fifo other ≠ [] := by
  simp only [shmQueues]
  by_cases full : (q.fifo port).length = shmPlaces
  · rw [if_pos full]
    exact some
  · rw [if_neg full]
    by_cases same : other = port
    · subst same
      rw [withFifo_same]
      exact List.append_ne_nil_of_left_ne_nil some _
    · rw [withFifo_other same]
      exact some

end ShmQueues

namespace ShmWords

variable {m : ShmWords} {q : ShmQueues}

/-- The next message is that of the queue; taking it concerns this queue only. -/
theorem Models.bdpiIOData (models : m.Models q)
    : ∃ d m' q', shmWords.bdpiIOData m = (d, m') ∧ shmQueues.bdpiIOData q = (d, q')
        ∧ m'.Models q' ∧ q'.fifo .outfifo = q.fifo .outfifo := by
  unfold SharedMemory.bdpiIOData
  rw [models.empty .infifo]
  cases items : q.fifo .infifo with
  | nil =>
      have none : shmQueues.empty .infifo q = true := by
        simp only [shmQueues, items, List.isEmpty_nil]
      rw [if_pos none, if_pos none]
      exact ⟨_, m, q, rfl, rfl, models, rfl⟩
  | cons d rest =>
      have some : shmQueues.empty .infifo q = false := by
        simp only [shmQueues, items, List.isEmpty_cons]
      rw [if_neg (Bool.eq_false_iff.mp some), if_neg (Bool.eq_false_iff.mp some),
        models.tail (items ▸ List.cons_ne_nil d rest)]
      exact ⟨_, _, _, rfl, rfl, models.pop .infifo, ShmQueues.withFifo_other (by decide) q _⟩

theorem Models.bdpiIOReadResp (models : m.Models q) (dat : BitVec 64)
    : (shmWords.bdpiIOReadResp m dat).Models (shmQueues.bdpiIOReadResp q dat) := by
  unfold SharedMemory.bdpiIOReadResp
  rw [models.full]
  split
  next => exact models
  next => exact models.push .outfifo dat

/-- A response empties no queue. -/
theorem bdpiIOReadResp_ne_nil {port : ShmPort} (some : q.fifo port ≠ []) (dat : BitVec 64)
    : (shmQueues.bdpiIOReadResp q dat).fifo port ≠ [] := by
  unfold SharedMemory.bdpiIOReadResp
  split
  next => exact some
  next => exact ShmQueues.push_ne_nil some dat

theorem Models.bdpiAssertInterrupt (models : m.Models q)
    : (shmWords.bdpiAssertInterrupt m).Models (shmQueues.bdpiAssertInterrupt q) := by
  unfold SharedMemory.bdpiAssertInterrupt
  rw [models.full]
  split
  next => exact models
  next => exact models.push .interruptfifo 0

/-- An interrupt empties no queue. -/
theorem bdpiAssertInterrupt_ne_nil {port : ShmPort} (some : q.fifo port ≠ [])
    : (shmQueues.bdpiAssertInterrupt q).fifo port ≠ [] := by
  unfold SharedMemory.bdpiAssertInterrupt
  split
  next => exact some
  next => exact ShmQueues.push_ne_nil some 0

theorem Models.store8 (models : m.Models q) {i : Nat} (inside : i < dma_buffer_size)
    (b : BitVec 8)
    : (shmWords.store8 m i b).Models (shmQueues.store8 q i b) := by
  have word : i / 8 < dma_buffer_size / 8 := by
    change i < 4194304 at inside
    change i / 8 < 524288
    omega
  have loaded : shmWords.load m (i / 8) = shmQueues.load q (i / 8) := models.words _ word
  unfold SharedMemory.store8
  rw [loaded]
  exact models.store word _

theorem Models.load32 (models : m.Models q) {i : Nat} (inside : 4 * i < dma_buffer_size)
    : shmWords.load32 m i = shmQueues.load32 q i := by
  have word : i / 2 < dma_buffer_size / 8 := by
    change 4 * i < 4194304 at inside
    change i / 2 < 524288
    omega
  have loaded : shmWords.load m (i / 2) = shmQueues.load q (i / 2) := models.words _ word
  unfold SharedMemory.load32
  rw [loaded]

theorem Models.bdpiDmaWriteData (models : m.Models q) {addr : BitVec 32}
    (inside : addr.toNat + 16 ≤ dma_buffer_size) (data1 data2 : BitVec 64)
    : (shmWords.bdpiDmaWriteData m addr data1 data2).Models
        (shmQueues.bdpiDmaWriteData q addr data1 data2) := by
  change addr.toNat + 16 ≤ 4194304 at inside
  have low : (addr >>> 3).toNat < dma_buffer_size / 8 := by
    change _ < 524288
    bv_omega
  have high : ((addr >>> 3) + 1).toNat < dma_buffer_size / 8 := by
    change _ < 524288
    bv_omega
  exact (models.store low data1).store high data2

end ShmWords

namespace Bluesim

/-- One simulation over the array of words, and one over the queues and the buffer it stands for. -/
structure Models (s : Bluesim ShmWords) (t : Bluesim ShmQueues) : Prop where
  memory : s.memory.Models t.memory
  call : s.call = t.call
  dma : s.dma = t.dma
  hw : s.hw = t.hw
  answered : ∀ addr, t.call = .tail addr → t.memory.fifo .outfifo ≠ []

section Simulation

variable {s s' : Bluesim ShmWords} {t : Bluesim ShmQueues}

/-- The software's next use of a queue is the same over both. -/
theorem Models.software (models : s.Models t) (fires : s.software shmWords = some s')
    : ∃ t', t.software shmQueues = some t' ∧ s'.Models t' := by
  obtain ⟨m, call, dma, hw⟩ := s
  obtain ⟨q, call', dma', hw'⟩ := t
  obtain ⟨memory, ⟨⟩, ⟨⟩, ⟨⟩, answered⟩ := models
  change m.Models q at memory
  unfold Bluesim.software at fires ⊢
  cases call with
  | idle => cases fires
  | full d reads =>
      dsimp only at fires ⊢
      rw [memory.full] at fires
      split at fires
      next full =>
        cases fires
        exact ⟨_, if_pos full, memory, rfl, rfl, rfl, answered⟩
      next room =>
        cases fires
        exact ⟨_, if_neg room, memory, rfl, rfl, rfl, fun _ same => by cases same⟩
  | push d reads =>
      cases fires
      refine ⟨_, rfl, memory.push .infifo d, rfl, rfl, rfl, ?_⟩
      intro addr same
      cases reads <;> cases same
  | empty addr =>
      dsimp only at fires ⊢
      rw [memory.empty] at fires
      split at fires
      next none =>
        cases fires
        exact ⟨_, if_pos none, memory, rfl, rfl, rfl, answered⟩
      next some =>
        cases fires
        refine ⟨_, if_neg some, memory, rfl, rfl, rfl, ?_⟩
        intro _ _ none
        exact some (List.isEmpty_iff.mpr none)
  | tail addr =>
      cases fires
      rw [memory.tail (answered addr rfl)]
      exact ⟨_, rfl, memory, rfl, rfl, rfl, fun _ same => by cases same⟩
  | pop addr data =>
      cases fires
      exact ⟨_, rfl, memory.pop .outfifo, rfl, rfl, rfl, fun _ same => by cases same⟩
  | interruptEmpty =>
      dsimp only at fires ⊢
      rw [memory.empty] at fires
      split at fires
      next none =>
        cases fires
        exact ⟨_, if_pos none, memory, rfl, rfl, rfl, fun _ same => by cases same⟩
      next some =>
        cases fires
        exact ⟨_, if_neg some, memory, rfl, rfl, rfl, fun _ same => by cases same⟩
  | interruptPop =>
      cases fires
      exact ⟨_, rfl, memory.pop .interruptfifo, rfl, rfl, rfl, fun _ same => by cases same⟩

/-- `receiveIo` does the same over both. -/
theorem Models.receiveIo (models : s.Models t) (fires : s.receiveIo shmWords = some s')
    : ∃ t', t.receiveIo shmQueues = some t' ∧ s'.Models t' := by
  obtain ⟨m, call, dma, hw⟩ := s
  obtain ⟨q, call', dma', hw'⟩ := t
  obtain ⟨memory, ⟨⟩, ⟨⟩, ⟨⟩, answered⟩ := models
  change m.Models q at memory
  obtain ⟨d, m', q', taken, taken', memory', same⟩ := memory.bdpiIOData
  have answered' : ∀ addr, call = .tail addr → q'.fifo .outfifo ≠ [] := by
    rw [same]
    exact answered
  unfold Bluesim.receiveIo at fires ⊢
  rw [taken] at fires
  rw [taken']
  dsimp only at fires ⊢
  split at fires
  next room =>
    rw [if_pos room]
    split at fires
    next ready =>
      rw [if_pos ready]
      split at fires
      next write =>
        rw [if_pos write]
        split at fires
        next user =>
          rw [if_pos user]
          obtain ⟨ioWriteQ, put, ⟨⟩⟩ := Option.bind_eq_some_iff.mp fires
          exact ⟨_, Option.bind_eq_some_iff.mpr ⟨ioWriteQ, put, rfl⟩, memory', rfl, rfl, rfl,
            answered'⟩
        next config =>
          rw [if_neg config]
          cases fires
          exact ⟨_, rfl, memory', rfl, rfl, rfl, answered'⟩
      next read =>
        rw [if_neg read]
        split at fires
        next user =>
          rw [if_pos user]
          obtain ⟨ioReadReqQ, put, ⟨⟩⟩ := Option.bind_eq_some_iff.mp fires
          exact ⟨_, Option.bind_eq_some_iff.mpr ⟨ioReadReqQ, put, rfl⟩, memory', rfl, rfl, rfl,
            answered'⟩
        next config =>
          rw [if_neg config]
          cases fires
          exact ⟨_, rfl, memory'.bdpiIOReadResp _, rfl, rfl, rfl, fun addr waits =>
            ShmWords.bdpiIOReadResp_ne_nil (answered' addr waits) _⟩
    next notready =>
      rw [if_neg notready]
      cases fires
      exact ⟨_, rfl, memory', rfl, rfl, rfl, answered'⟩
  next => cases fires

/-- `relayIOReadResp` does the same over both. -/
theorem Models.relayIOReadResp (models : s.Models t)
    (fires : s.relayIOReadResp shmWords = some s')
    : ∃ t', t.relayIOReadResp shmQueues = some t' ∧ s'.Models t' := by
  obtain ⟨m, call, dma, hw⟩ := s
  obtain ⟨q, call', dma', hw'⟩ := t
  obtain ⟨memory, ⟨⟩, ⟨⟩, ⟨⟩, answered⟩ := models
  change m.Models q at memory
  obtain ⟨ioreq, _, data, _, request, answer, rest⟩ := relayIOReadResp_cases fires
  have same : shmWords.bdpiIOReadRespReady m = shmQueues.bdpiIOReadRespReady q :=
    congrArg not (memory.full .outfifo)
  rcases rest with ⟨room, rfl⟩ | ⟨busy, rfl⟩
  · have ready : shmQueues.bdpiIOReadRespReady q = true := same ▸ congrArg not room
    refine ⟨_, Option.bind_eq_some_iff.mpr ⟨_, request, Option.bind_eq_some_iff.mpr
      ⟨_, answer, if_pos ready⟩⟩, memory.bdpiIOReadResp _, rfl, rfl, rfl, ?_⟩
    exact fun addr waits => ShmWords.bdpiIOReadResp_ne_nil (answered addr waits) _
  · have full : ¬shmQueues.bdpiIOReadRespReady q = true :=
      Bool.eq_false_iff.mp (same ▸ congrArg not busy)
    exact ⟨_, Option.bind_eq_some_iff.mpr ⟨_, request, Option.bind_eq_some_iff.mpr
      ⟨_, answer, if_neg full⟩⟩, memory, rfl, rfl, rfl, answered⟩

/-- `receiveDmaRead` loads the same DW from both. -/
theorem Models.receiveDmaRead (models : s.Models t) (kept : s.InBuffer)
    (fires : s.receiveDmaRead shmWords = some s')
    : ∃ t', t.receiveDmaRead shmQueues = some t' ∧ s'.Models t' := by
  obtain ⟨m, call, dma, hw⟩ := s
  obtain ⟨q, call', dma', hw'⟩ := t
  obtain ⟨memory, ⟨⟩, ⟨⟩, ⟨⟩, answered⟩ := models
  change m.Models q at memory
  obtain ⟨counts, ⟨none, rfl⟩ | ⟨word, ready, value, rest⟩⟩ := receiveDmaRead_cases fires
  · refine ⟨_, ?_, memory, rfl, rfl, rfl, answered⟩
    have waits : ¬bdpiDmaReadReady dma = true := by
      simp only [bdpiDmaReadReady, show dma.dmaReadWordsRemain = 0 from none, decide_eq_true_eq]
      decide
    unfold Bluesim.receiveDmaRead
    rw [if_pos counts, if_neg waits]
  · have loaded : shmWords.bdpiDmaReadData m dma = shmQueues.bdpiDmaReadData q dma :=
      congrArg (·, _) (memory.load32 (kept.next ready).1)
    have some : bdpiDmaReadReady dma = true := decide_eq_true ready
    change word = (shmWords.bdpiDmaReadData m dma).1 ++ _ at value
    rw [loaded] at value
    rcases rest with ⟨last, dmaReadWordQ, put, rfl⟩ | ⟨more, rfl⟩
    · refine ⟨{
        memory := q
        call
        dma := (shmQueues.bdpiDmaReadData q dma).2
        hw := { hw with
          dmaReadWordCount := hw.dmaReadWordCount - 1, dmaReadWordQ, dmaReadBufferOff := 0 } },
        ?_, memory, rfl, congrArg Prod.snd loaded, rfl, answered⟩
      unfold Bluesim.receiveDmaRead
      rw [if_pos counts, if_pos some]
      dsimp only at last put ⊢
      rw [if_pos last, ← value, put]
      rfl
    · refine ⟨{
        memory := q
        call
        dma := (shmQueues.bdpiDmaReadData q dma).2
        hw := { hw with dmaReadBuffer := word, dmaReadBufferOff := hw.dmaReadBufferOff + 1 } },
        ?_, memory, rfl, congrArg Prod.snd loaded, rfl, answered⟩
      unfold Bluesim.receiveDmaRead
      rw [if_pos counts, if_pos some]
      dsimp only at more ⊢
      rw [if_neg more, ← value]

/-- As long as DMA stays inside the buffer, a step over the array of words is one over the queues
and the buffer.
-/
theorem Models.step {e : BluesimEvent} (models : s.Models t) (kept : s.InBuffer)
    (inside : e.InBuffer) (fires : s.step shmWords e = some s')
    : ∃ t', t.step shmQueues e = some t' ∧ s'.Models t' := by
  cases e with
  | software => exact models.software fires
  | receiveIo => exact models.receiveIo fires
  | relayIOReadResp => exact models.relayIOReadResp fires
  | receiveDmaRead => exact models.receiveDmaRead kept fires
  | writeWord | readWord | waitInterrupt =>
      obtain ⟨idle, rfl⟩ := starts_eq_some.mp fires
      exact ⟨_, starts_eq_some.mpr ⟨models.call.symm.trans idle, rfl⟩, models.memory, rfl,
        models.dma, models.hw, fun _ same => by cases same⟩
  | storeByte i b =>
      simp only [Bluesim.step] at fires ⊢
      rw [models.call] at fires
      split at fires
      next idle =>
        cases fires
        exact ⟨_, if_pos idle, models.memory.store8 inside b, rfl, models.dma, models.hw,
          fun addr waits => models.answered addr (idle.symm ▸ waits)⟩
      next => cases fires
  | dataReceive | dataReq | dmaReadWord =>
      obtain ⟨⟨_, _⟩, taken, ⟨⟩⟩ := Option.bind_eq_some_iff.mp fires
      rw [models.hw] at taken
      refine ⟨_, Option.bind_eq_some_iff.mpr ⟨_, taken, rfl⟩, models.memory, models.call,
        models.dma, ?_, models.answered⟩
      simp only [models.hw]
  | dataSend ioreq data =>
      obtain ⟨_, put, later⟩ := Option.bind_eq_some_iff.mp fires
      obtain ⟨_, put', ⟨⟩⟩ := Option.bind_eq_some_iff.mp later
      rw [models.hw] at put put'
      refine ⟨_, Option.bind_eq_some_iff.mpr ⟨_, put, Option.bind_eq_some_iff.mpr
        ⟨_, put', rfl⟩⟩, models.memory, models.call, models.dma, ?_, models.answered⟩
      simp only [models.hw]
  | dmaWriteReq addr words =>
      simp only [Bluesim.step, Bluesim.dmaWriteReq] at fires ⊢
      rw [models.hw] at fires
      split at fires
      next free =>
        cases fires
        exact ⟨_, if_pos free, models.memory, models.call, models.dma, rfl, models.answered⟩
      next => cases fires
  | dmaWriteData data =>
      have bounded := kept.writes
      simp only [Bluesim.step, Bluesim.dmaWriteData] at fires ⊢
      rw [models.hw] at fires bounded
      split at fires
      next counts =>
        cases fires
        refine ⟨_, if_pos counts, models.memory.bdpiDmaWriteData ?_ _ _, models.call, models.dma,
          rfl, models.answered⟩
        change _ ≤ 4194304 at bounded
        change _ ≤ 4194304
        bv_omega
      next => cases fires
  | dmaReadReq addr words =>
      simp only [Bluesim.step, Bluesim.dmaReadReq] at fires ⊢
      rw [models.hw] at fires
      split at fires
      next free =>
        cases fires
        exact ⟨_, if_pos free, models.memory, models.call, rfl, rfl, models.answered⟩
      next => cases fires
  | assertInterrupt =>
      have same : shmWords.bdpiInterruptReady s.memory = shmQueues.bdpiInterruptReady t.memory :=
        congrArg not (models.memory.full .interruptfifo)
      simp only [Bluesim.step, Bluesim.assertInterrupt, same] at fires ⊢
      split at fires
      next ready =>
        cases fires
        exact ⟨_, if_pos ready, models.memory.bdpiAssertInterrupt, models.call, models.dma,
          models.hw, fun addr waits =>
            ShmWords.bdpiAssertInterrupt_ne_nil (models.answered addr waits)⟩
      next => cases fires

end Simulation

end Bluesim

-----------------------------------------------------------------------------------------
-- Refinement
-----------------------------------------------------------------------------------------

/-- A new simulation stands for empty queues and a buffer of zeros. -/
theorem bluesim_related
    : bluesim.Models (.reset ⟨fun _ => [], fun _ => 0⟩) ∧ bluesim.InBuffer := by
  have memory : (ShmWords.construct (ShmWords.construct (fun _ => 0))).Models
      ⟨fun _ => [], fun _ => 0⟩ := by
    rw [ShmWords.models_construct.construct]
    exact ShmWords.models_construct
  refine ⟨⟨memory, rfl, rfl, rfl, fun _ same => by cases same⟩, ?_, ?_⟩
  · exact Nat.zero_le _
  · exact Nat.zero_le _

/-- The queues and the buffer follow the array of words, as long as DMA stays inside the buffer. -/
theorem bluesim_simulates
    : Simulates (Bluesim.step shmWords) (Bluesim.step shmQueues) (fun _ e => e.InBuffer)
        (fun s t => s.Models t ∧ s.InBuffer) := by
  rintro s t e s' ⟨models, kept⟩ inside fires
  obtain ⟨t', fires', models'⟩ := models.step kept inside fires
  exact ⟨t', fires', models', kept.step inside fires⟩

/-- As long as DMA stays inside the buffer, simulator and software sharing one array of words do
step by step what they would do over three queues and a buffer that have nothing in common; so
they do over every schedule.
-/
theorem bluesim_refines
    : (bluesim.Models (.reset ⟨fun _ => [], fun _ => 0⟩) ∧ bluesim.InBuffer)
      ∧ (∀ (s : Bluesim ShmWords) (t : Bluesim ShmQueues) e s',
        s.Models t ∧ s.InBuffer → e.InBuffer → s.step shmWords e = some s' →
          ∃ t', t.step shmQueues e = some t' ∧ s'.Models t' ∧ s'.InBuffer)
      ∧ ∀ (es : List BluesimEvent) (s : Bluesim ShmWords), (∀ e ∈ es, e.InBuffer) →
        exec (Bluesim.step shmWords) bluesim es = some s →
          ∃ t, exec (Bluesim.step shmQueues) (.reset ⟨fun _ => [], fun _ => 0⟩) es = some t
            ∧ s.Models t := by
  refine ⟨bluesim_related, fun _ _ _ _ related inside => bluesim_simulates related inside, ?_⟩
  intro es s inside done
  obtain ⟨t, done', models, -⟩ := bluesim_simulates.exec bluesim_related inside done
  exact ⟨t, done', models⟩

/-- A write message, a DMA write at the end of the buffer, and an interrupt. -/
def fullBufferRun : List BluesimEvent :=
  [.dmaWriteReq 4194288 1, .writeWord 16384 7, .software, .software,
    .dmaWriteData 0x00000000000000050000000000000003, .assertInterrupt]

/-- After that run both parties see the last word of the buffer written and a message waiting. -/
theorem bluesim_refines_fullBuffer
    : ∃ (s : Bluesim ShmWords) (t : Bluesim ShmQueues),
        exec (Bluesim.step shmWords) bluesim fullBufferRun = some s
        ∧ (s.memory 524287, shmWords.empty .infifo s.memory) = (5, false)
        ∧ exec (Bluesim.step shmQueues) (.reset ⟨fun _ => [], fun _ => 0⟩) fullBufferRun = some t
        ∧ s.Models t := by
  have ran : (exec (Bluesim.step shmWords) bluesim fullBufferRun).map
      (fun s => (s.memory 524287, shmWords.empty .infifo s.memory)) = some (5, false) := by
    decide +kernel
  obtain ⟨s, done, seen⟩ := Option.map_eq_some_iff.mp ran
  obtain ⟨t, done', models⟩ := bluesim_refines.2.2 fullBufferRun s (by decide) done
  exact ⟨s, t, done, seen, done', models⟩

end BluespecPcie

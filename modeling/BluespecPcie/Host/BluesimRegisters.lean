import BluespecPcie.Bluespec.Bits
import BluespecPcie.Bluespec.Simulation
import BluespecPcie.Host.Bdbmpcie
import BluespecPcie.Host.BluesimQueues

/-! Register accesses in a simulation: the writes are delivered in order, and a read returns what
the user's logic sent for it.
-/

namespace BluespecPcie

open Bluespec

-----------------------------------------------------------------------------------------
-- History
-----------------------------------------------------------------------------------------

/-- The calls of `writeWord` and `readWord`, the writes and the requests that the user's logic was
given, the data it sent, and the reads that returned, with their values.
-/
structure RegisterLog where
  written : List (BitVec 32 × BitVec 32)
  delivered : List IOWrite
  reads : List (BitVec 32)
  requested : List (BitVec 20)
  sent : List (BitVec 32)
  finished : List (BitVec 32 × BitVec 32)

/-- Nothing has happened. -/
def RegisterLog.start : RegisterLog := ⟨[], [], [], [], [], []⟩

/-- How an event extends the history; `s` is the state before it. -/
def RegisterLog.record {μ : Type} (s : Bluesim μ) (e : BluesimEvent) (log : RegisterLog)
    : RegisterLog :=
  match e with
  | .writeWord addr data => { log with written := log.written ++ [(addr, data)] }
  | .readWord addr => { log with reads := log.reads ++ [addr] }
  | .dataReceive => { log with delivered := log.delivered ++ s.hw.ioWriteQ.items.take 1 }
  | .dataReq =>
      { log with
        requested := log.requested ++ (s.hw.ioReadReqQ.items.take 1).map IOReadReq.addr }
  | .dataSend _ data => { log with sent := log.sent ++ [data] }
  | .software =>
      match s.call with
      | .pop addr data => { log with finished := log.finished ++ [(addr, data.truncate 32)] }
      | _ => log
  | _ => log

/-- Registers are accessed inside BAR0, the user's logic answers no more than it was asked, and DMA
stays inside the buffer.
-/
def RegisterCalls {μ : Type} (state : Bluesim μ × RegisterLog) : BluesimEvent → Prop
  | .writeWord addr _ => addr.toNat < bar0_size
  | .readWord addr => addr.toNat < bar0_size
  | .dataSend _ _ => state.2.sent.length < state.2.requested.length
  | e => e.InBuffer

/-- An address of the user region. -/
abbrev isUserAddr (addr : BitVec 32) : Prop := config_buffer_size ≤ addr.toNat

/-- The write that a call of `writeWord` is for the user's logic. -/
def userWrite (call : BitVec 32 × BitVec 32) : Option IOWrite :=
  if isUserAddr call.1 then
    some { addr := BitVec.ofNat 20 (call.1.toNat - config_buffer_size), data := call.2 }
  else none

/-- The request that a call of `readWord` is for the user's logic. -/
def userRead (addr : BitVec 32) : Option (BitVec 20) :=
  if isUserAddr addr then some (BitVec.ofNat 20 (addr.toNat - config_buffer_size)) else none

/-- The values returned for reads of the user region. -/
def userAnswers (finished : List (BitVec 32 × BitVec 32)) : List (BitVec 32) :=
  (finished.filter (fun read => isUserAddr read.1)).map Prod.snd

/-- Writes are delivered in the order of their calls, each once. Requests are given in the order of
their calls, and the reads return in this order: one of the user region returns the data sent for
it, and another one a constant. Between calls no read is open.
-/
structure RegistersServed (s : Bluesim ShmWords) (log : RegisterLog) : Prop where
  delivered : log.delivered <+: log.written.filterMap userWrite
  requested : log.requested <+: log.reads.filterMap userRead
  finished : log.finished.map Prod.fst <+: log.reads
  answers : userAnswers log.finished <+: log.sent
  config : ∀ read ∈ log.finished, ¬isUserAddr read.1 → read.2 = 0xc001d00d
  returned
    : s.call = .idle →
        log.finished.map Prod.fst = log.reads
        ∧ userAnswers log.finished = log.sent
        ∧ log.requested = log.reads.filterMap userRead
  drained
    : s.call = .idle → shmWords.empty .infifo s.memory → s.hw.ioWriteQ.items = [] →
        log.delivered = log.written.filterMap userWrite

-----------------------------------------------------------------------------------------
-- Messages
-----------------------------------------------------------------------------------------

/-- The request for the user's logic that a message is. -/
def messageRequest (d : BitVec 64) : Option (BitVec 20) :=
  (Bluesim.messageRead d).bind (fun addr =>
    if addr ≥ io_userspace_offset then some (addr - io_userspace_offset) else none)

section Messages

variable {addr data : BitVec 32} (inside : addr.toNat < bar0_size)

include inside in
/-- The parts of a write's message do not overlap. -/
theorem toNat_writeMessage
    : (writeMessage addr data).toNat = data.toNat + 2 ^ 56 + addr.toNat * 2 ^ 32 := by
  change addr.toNat < 1048576 at inside
  have small := data.isLt
  have shifted : (addr.setWidth 64 <<< 32 : BitVec 64).toNat = 2 ^ 32 * addr.toNat := by
    rw [BitVec.toNat_shiftLeft, BitVec.toNat_setWidth, Nat.shiftLeft_eq]
    omega
  have flag : (1#64 <<< (32 + 24)).toNat = 2 ^ 56 * 1 := rfl
  have wide : (data.setWidth 64).toNat = data.toNat := by
    rw [BitVec.toNat_setWidth]
    omega
  have fits : 2 ^ 32 * addr.toNat + data.toNat < 2 ^ 56 := by omega
  rw [writeMessage, BitVec.toNat_or, BitVec.toNat_or, shifted, flag, wide,
    Nat.or_comm data.toNat, Nat.or_assoc, Nat.or_comm data.toNat,
    ← Nat.two_pow_add_eq_or_of_lt small, ← Nat.two_pow_add_eq_or_of_lt fits]
  omega

include inside in
theorem toNat_readMessage : (readMessage addr).toNat = addr.toNat * 2 ^ 32 := by
  change addr.toNat < 1048576 at inside
  rw [readMessage, BitVec.toNat_shiftLeft, BitVec.toNat_setWidth, Nat.shiftLeft_eq]
  omega

include inside in
/-- A write's message is the write, and no read. -/
theorem messageWrite_writeMessage
    : Bluesim.messageWrite (writeMessage addr data) = userWrite (addr, data)
      ∧ Bluesim.messageRead (writeMessage addr data) = none := by
  have value : (writeMessage addr data).toNat = data.toNat + 2 ^ 56 + addr.toNat * 2 ^ 32 :=
    toNat_writeMessage inside
  change addr.toNat < 1048576 at inside
  generalize writeMessage addr data = d at value
  have ready : (d >>> (32 + 31)).truncate 1 = 0#1 := by bv_omega
  have write : (d >>> (32 + 24)).truncate 1 = 1#1 := by bv_omega
  have low : d.truncate 32 = data := by bv_omega
  have high : ((d >>> 32).truncate 20 : BitVec 20).toNat = addr.toNat := by bv_omega
  refine ⟨?_, if_neg (fun read => read.2 write)⟩
  unfold Bluesim.messageWrite userWrite
  by_cases user : isUserAddr addr
  · have above : (d >>> 32).truncate 20 ≥ io_userspace_offset := by
      rw [ge_iff_le, BitVec.le_def, high]
      exact user
    have offset : (d >>> 32).truncate 20 - io_userspace_offset
        = BitVec.ofNat 20 (addr.toNat - config_buffer_size) := by
      change 16384 ≤ addr.toNat at user
      apply BitVec.eq_of_toNat_eq
      rw [BitVec.toNat_sub_of_le above, high, BitVec.toNat_ofNat]
      change addr.toNat - 16384 = (addr.toNat - 16384) % 1048576
      omega
    rw [if_pos ⟨ready, write, above⟩, if_pos user, low, offset]
  · have below : ¬(d >>> 32).truncate 20 ≥ io_userspace_offset := by
      rw [ge_iff_le, BitVec.le_def, high]
      exact user
    rw [if_neg (fun write => below write.2.2), if_neg user]

include inside in
/-- A read's message is the read, and no write. -/
theorem messageRead_readMessage
    : Bluesim.messageWrite (readMessage addr) = none
      ∧ Bluesim.messageRead (readMessage addr) = some (addr.truncate 20) := by
  have value := toNat_readMessage inside
  change addr.toNat < 1048576 at inside
  generalize readMessage addr = d at value
  have ready : (d >>> (32 + 31)).truncate 1 = 0#1 := by bv_omega
  have read : ¬(d >>> (32 + 24)).truncate 1 = 1#1 := by bv_omega
  have high : ((d >>> 32).truncate 20 : BitVec 20) = addr.truncate 20 := by bv_omega
  refine ⟨if_neg (fun write => read write.2.1), ?_⟩
  unfold Bluesim.messageRead
  rw [if_pos ⟨ready, read⟩, high]

include inside in
/-- The address of a read is of the user region in the engine when it is in the software. -/
theorem truncate_ge_iff
    : (addr.truncate 20 : BitVec 20) ≥ io_userspace_offset ↔ isUserAddr addr := by
  change addr.toNat < 1048576 at inside
  have same : (addr.truncate 20 : BitVec 20).toNat = addr.toNat := by
    rw [BitVec.truncate, BitVec.toNat_setWidth]
    omega
  rw [ge_iff_le, BitVec.le_def, same]
  rfl

include inside in
theorem truncate_sub (user : isUserAddr addr)
    : (addr.truncate 20 : BitVec 20) - io_userspace_offset
      = BitVec.ofNat 20 (addr.toNat - config_buffer_size) := by
  change addr.toNat < 1048576 at inside
  change 16384 ≤ addr.toNat at user
  change (addr.truncate 20 : BitVec 20) - 16384#20 = BitVec.ofNat 20 (addr.toNat - 16384)
  bv_omega

include inside in
/-- A read's message is the request of its call. -/
theorem messageRequest_readMessage : messageRequest (readMessage addr) = userRead addr := by
  unfold messageRequest userRead
  rw [(messageRead_readMessage inside).2, Option.bind_some]
  by_cases user : isUserAddr addr
  · rw [if_pos ((truncate_ge_iff inside).mpr user), if_pos user, truncate_sub inside user]
  · rw [if_neg (mt (truncate_ge_iff inside).mp user), if_neg user]

end Messages

-----------------------------------------------------------------------------------------
-- Where a read is
-----------------------------------------------------------------------------------------

/-- A read that is asked for by a message, wanted from the user's logic, taken by it, answered by it
with some data, or responded to; or none.
-/
inductive ReadStage where
  | none
  | asked
  | wanted
  | taken
  | answered (data : BitVec 32)
  | responded (data : BitVec 32)

namespace ReadStage

/-- The reads among the messages. -/
def asks (addr : BitVec 32) : ReadStage → List (BitVec 20)
  | .asked => [addr.truncate 20]
  | _ => []

/-- The requests for the user's logic. -/
def wants (addr : BitVec 32) : ReadStage → List (BitVec 20)
  | .wanted => [addr.truncate 20 - io_userspace_offset]
  | _ => []

/-- The requests that the user's logic has not answered. -/
def open_ : ReadStage → Nat
  | .taken => 1
  | _ => 0

/-- The answers of the user's logic. -/
def answers : ReadStage → List (BitVec 32)
  | .answered data => [data]
  | _ => []

/-- The data in the responses to the software. -/
def responses : ReadStage → List (BitVec 32)
  | .responded data => [data]
  | _ => []

/-- The data that is on its way to the software. -/
def data : ReadStage → List (BitVec 32)
  | .answered data => [data]
  | .responded data => [data]
  | _ => []

/-- The user's logic is concerned. -/
def IsUsers : ReadStage → Prop
  | .wanted | .taken | .answered _ => True
  | _ => False

/-- The one read under way, of `addr`, is at this stage and nowhere else. -/
structure Holds (stage : ReadStage) (addr : BitVec 32) (s : Bluesim ShmQueues) (log : RegisterLog)
    : Prop where
  inside : addr.toNat < bar0_size
  asked : (s.memory.fifo .infifo).filterMap Bluesim.messageRead = stage.asks addr
  wanted : s.hw.ioReadReqQ.items.map IOReadReq.addr = stage.wants addr
  taken : log.requested.length = log.sent.length + stage.open_
  answered : s.hw.ioReadReqDataQ.items = stage.answers
  responded : (s.memory.fifo .outfifo).map (BitVec.truncate 32) = stage.responses
  users : stage.IsUsers → isUserAddr addr
  settled
    : userAnswers log.finished ++ (if isUserAddr addr then stage.data else []) = log.sent
  constant : ¬isUserAddr addr → ∀ data, stage = .responded data → data = 0xc001d00d

end ReadStage

namespace SoftwareCall

/-- The message that a call has still to push. -/
def message : SoftwareCall → List (BitVec 64)
  | .full d _ | .push d _ => [d]
  | _ => []

/-- The address that a call reads. -/
def reading : SoftwareCall → Option (BitVec 32)
  | .full _ reads | .push _ reads => reads
  | .empty addr | .tail addr | .pop addr _ => some addr
  | _ => none

/-- What a call knows about its read. -/
def Fits (stage : ReadStage) : SoftwareCall → Prop
  | .full d reads | .push d reads =>
      stage = .none
      ∧ match reads with
        | none => Bluesim.messageRead d = none
        | some addr => d = readMessage addr
  | .empty _ => stage ≠ .none
  | .tail _ => ∃ data, stage = .responded data
  | .pop _ data => stage = .responded (data.truncate 32)
  | .idle | .interruptEmpty | .interruptPop => stage = .none

end SoftwareCall

/-- The messages under way, the last still with the software. -/
def Bluesim.messages (s : Bluesim ShmQueues) : List (BitVec 64) :=
  s.memory.fifo .infifo ++ s.call.message

/-- What is kept of register accesses. -/
structure RegistersKept (s : Bluesim ShmQueues) (log : RegisterLog) : Prop where
  bounded : (s.memory.fifo .infifo).length ≤ shmPlaces
  room : ∀ d reads, s.call = .push d reads → (s.memory.fifo .infifo).length ≠ shmPlaces
  writes
    : log.delivered ++ s.hw.ioWriteQ.items ++ s.messages.filterMap Bluesim.messageWrite
      = log.written.filterMap userWrite
  requests
    : log.requested ++ s.hw.ioReadReqQ.items.map IOReadReq.addr
        ++ s.messages.filterMap messageRequest
      = log.reads.filterMap userRead
  config : ∀ read ∈ log.finished, ¬isUserAddr read.1 → read.2 = 0xc001d00d
  called : log.finished.map Prod.fst ++ s.call.reading.toList = log.reads
  reading
    : ∃ stage : ReadStage, stage.Holds (s.call.reading.getD 0) s log ∧ s.call.Fits stage

-----------------------------------------------------------------------------------------
-- Steps
-----------------------------------------------------------------------------------------

/-- A response carries its data in its low half. -/
theorem truncate_response (addr : BitVec 20) (data : BitVec 32)
    : ((0#12 ++ addr ++ data : BitVec 64).truncate 32 : BitVec 32) = data := by
  apply BitVec.eq_of_toNat_eq
  have small := data.isLt
  rw [BitVec.truncate, BitVec.toNat_setWidth, toNat_append_add]
  omega

/-- A message that is no read is no request. -/
theorem messageRequest_none {d : BitVec 64} (none : Bluesim.messageRead d = none)
    : messageRequest d = .none := by
  rw [messageRequest, none]
  rfl

/-- What the engine takes is the oldest message, or nothing that it acts on. -/
theorem bdpiIOData_cases {q q' : ShmQueues} {d : BitVec 64}
    (taken : shmQueues.bdpiIOData q = (d, q'))
    : (q.fifo .infifo = d :: q'.fifo .infifo ∧ q'.fifo .outfifo = q.fifo .outfifo)
      ∨ (q' = q ∧ Bluesim.messageWrite d = none ∧ Bluesim.messageRead d = none) := by
  unfold SharedMemory.bdpiIOData at taken
  cases items : q.fifo .infifo with
  | nil =>
      have none : shmQueues.empty .infifo q = true := List.isEmpty_iff.mpr items
      rw [if_pos none] at taken
      cases taken
      exact .inr ⟨rfl, by decide, by decide⟩
  | cons first rest =>
      have some : ¬shmQueues.empty .infifo q = true := by
        simp only [shmQueues, items, List.isEmpty_cons, Bool.false_eq_true, not_false_eq_true]
      rw [if_neg some] at taken
      obtain ⟨head, tail⟩ := Prod.mk.inj taken
      have first_ : shmQueues.tail .infifo q = first := by
        simp only [shmQueues, items, List.headD_cons]
      have rest_ : q'.fifo .infifo = rest := by
        rw [← tail]
        simp only [shmQueues, ShmQueues.withFifo_same, items, List.tail_cons]
      refine .inl ⟨?_, ?_⟩
      · rw [rest_, ← head, first_]
      · rw [← tail]
        exact ShmQueues.withFifo_other (by decide) q _

/-- With nothing in front of it a response is pushed. -/
theorem bdpiIOReadResp_fifo {q : ShmQueues} (none : q.fifo .outfifo = []) (dat : BitVec 64)
    : (shmQueues.bdpiIOReadResp q dat).fifo .outfifo = [dat]
      ∧ (shmQueues.bdpiIOReadResp q dat).fifo .infifo = q.fifo .infifo := by
  have room : ¬shmQueues.full .outfifo q = true := by
    simp only [shmQueues, none]
    decide
  have places : ¬(q.fifo .outfifo).length = shmPlaces := by
    rw [none]
    decide
  have pushed : shmQueues.bdpiIOReadResp q dat
      = q.withFifo .outfifo (q.fifo .outfifo ++ [dat]) := by
    rw [SharedMemory.bdpiIOReadResp, if_neg room]
    exact if_neg places
  rw [pushed]
  refine ⟨?_, ShmQueues.withFifo_other (by decide) q _⟩
  rw [ShmQueues.withFifo_same, none]
  rfl

/-- A call that waits for its answer waits on while its read moves. -/
theorem SoftwareCall.Fits.moves {call : SoftwareCall} {stage later : ReadStage}
    (fits : call.Fits stage) (busy : stage ≠ .none) (open_ : ∀ data, stage ≠ .responded data)
    (goesOn : later ≠ .none)
    : call.Fits later := by
  cases call with
  | idle | interruptEmpty | interruptPop => exact absurd fits busy
  | full d reads | push d reads => exact absurd fits.1 busy
  | empty addr => exact goesOn
  | tail addr =>
      obtain ⟨data, same⟩ := fits
      exact absurd same (open_ data)
  | pop addr data => exact absurd fits (open_ _)

theorem filterMap_cons_toList {α β : Type} (f : α → Option β) (a : α) (l : List α)
    : (a :: l).filterMap f = (f a).toList ++ l.filterMap f := by
  rw [List.filterMap_cons]
  cases f a <;> rfl

theorem filterMap_snoc {α β : Type} (f : α → Option β) (l : List α) (a : α)
    : (l ++ [a]).filterMap f = l.filterMap f ++ (f a).toList := by
  rw [List.filterMap_append, filterMap_cons_toList, List.filterMap_nil, List.append_nil]

/-- Values of finished reads, one more. -/
theorem userAnswers_snoc (finished : List (BitVec 32 × BitVec 32)) (addr data : BitVec 32)
    : userAnswers (finished ++ [(addr, data)])
      = userAnswers finished ++ (if isUserAddr addr then [data] else []) := by
  unfold userAnswers
  rw [List.filter_append, List.map_append]
  by_cases user : isUserAddr addr
  · rw [if_pos user, List.filter_cons_of_pos (by simpa using user)]
    rfl
  · rw [if_neg user, List.filter_cons_of_neg (by simpa using user)]
    rfl

section Steps

variable {s s' : Bluesim ShmQueues} {log : RegisterLog}

theorem registersKept_reset : RegistersKept (.reset ⟨fun _ => [], fun _ => 0⟩) .start where
  bounded := Nat.zero_le _
  room := fun _ _ same => by cases same
  writes := rfl
  requests := rfl
  config := fun _ member => by cases member
  called := rfl
  reading :=
    ⟨.none, ⟨by decide, rfl, rfl, rfl, rfl, rfl, False.elim,
      show (if isUserAddr 0 then ([] : List (BitVec 32)) else []) = [] from ite_self _,
      fun _ _ same => by cases same⟩, rfl⟩

/-- What concerns no register access keeps everything. -/
theorem RegistersKept.frame (kept : RegistersKept s log)
    (infifo : s'.memory.fifo .infifo = s.memory.fifo .infifo)
    (outfifo : s'.memory.fifo .outfifo = s.memory.fifo .outfifo) (call : s'.call = s.call)
    (writeQ : s'.hw.ioWriteQ = s.hw.ioWriteQ) (readQ : s'.hw.ioReadReqQ = s.hw.ioReadReqQ)
    (dataQ : s'.hw.ioReadReqDataQ = s.hw.ioReadReqDataQ)
    : RegistersKept s' log := by
  obtain ⟨bounded, room, writes, requests, config, called, stage, holds, fits⟩ := kept
  have messages : s'.messages = s.messages := by rw [Bluesim.messages, infifo, call]; rfl
  refine ⟨?_, ?_, ?_, ?_, config, ?_, stage, ⟨?_, ?_, ?_, holds.taken, ?_, ?_, ?_, ?_, ?_⟩, ?_⟩
  · rw [infifo]
    exact bounded
  · rw [infifo, call]
    exact room
  · rw [messages, writeQ]
    exact writes
  · rw [messages, readQ]
    exact requests
  · rw [call]
    exact called
  · rw [call]
    exact holds.inside
  · rw [infifo, call]
    exact holds.asked
  · rw [readQ, call]
    exact holds.wanted
  · rw [dataQ]
    exact holds.answered
  · rw [outfifo]
    exact holds.responded
  · rw [call]
    exact holds.users
  · rw [call]
    exact holds.settled
  · rw [call]
    exact holds.constant
  · rw [call]
    exact fits

/-- A write is delivered. -/
theorem RegistersKept.dataReceive (kept : RegistersKept s log) (fires : s.dataReceive = some s')
    : RegistersKept s' (log.record s .dataReceive) := by
  obtain ⟨⟨write, ioWriteQ⟩, taken, ⟨⟩⟩ := Option.bind_eq_some_iff.mp fires
  obtain ⟨bounded, room, writes, requests, config, called, stage, holds, fits⟩ := kept
  refine ⟨bounded, room, ?_, requests, config, called, stage, ?_, fits⟩
  · refine Eq.trans ?_ writes
    change log.delivered ++ s.hw.ioWriteQ.items.take 1 ++ ioWriteQ.items
        ++ s.messages.filterMap Bluesim.messageWrite = _
    rw [Fifo.deq_eq_some.mp taken, List.take_succ_cons, List.take_zero, List.append_assoc _ [write]]
    rfl
  · exact ⟨holds.inside, holds.asked, holds.wanted, holds.taken, holds.answered, holds.responded,
      holds.users, holds.settled, holds.constant⟩

/-- A request is given to the user's logic. -/
theorem RegistersKept.dataReq (kept : RegistersKept s log) (fires : s.dataReq = some s')
    : RegistersKept s' (log.record s .dataReq) := by
  obtain ⟨⟨req, ioReadReqQ⟩, taken, ⟨⟩⟩ := Option.bind_eq_some_iff.mp fires
  have items := Fifo.deq_eq_some.mp taken
  obtain ⟨bounded, room, writes, requests, config, called, stage, holds, fits⟩ := kept
  have wanted := holds.wanted
  rw [items, List.map_cons] at wanted
  cases stage with
  | none | asked | taken | answered data | responded data => cases wanted
  | wanted =>
      obtain ⟨addr, rest⟩ := List.cons.inj wanted
      refine ⟨bounded, room, writes, ?_, config, called, .taken, ⟨holds.inside, holds.asked, rest,
        ?_, holds.answered, holds.responded, fun _ => holds.users trivial, holds.settled, ?_⟩, ?_⟩
      · refine Eq.trans ?_ requests
        change log.requested ++ (s.hw.ioReadReqQ.items.take 1).map IOReadReq.addr
            ++ ioReadReqQ.items.map IOReadReq.addr ++ s.messages.filterMap messageRequest = _
        rw [items, List.take_succ_cons, List.take_zero, List.map_cons, List.map_nil,
          List.append_assoc _ [req.addr]]
        rfl
      · have count : log.requested.length = log.sent.length := holds.taken
        change (log.requested ++ (s.hw.ioReadReqQ.items.take 1).map IOReadReq.addr).length
          = log.sent.length + 1
        rw [items, List.length_append, count]
        rfl
      · intro _ _ same
        cases same
      · exact fits.moves nofun nofun nofun

/-- The user's logic answers the request that it took. -/
theorem RegistersKept.dataSend (kept : RegistersKept s log) {ioreq : IOReadReq} {data : BitVec 32}
    (asked : log.sent.length < log.requested.length) (fires : s.dataSend ioreq data = some s')
    : RegistersKept s' (log.record s (.dataSend ioreq data)) := by
  obtain ⟨ioReadReqReturnQ, -, later⟩ := Option.bind_eq_some_iff.mp fires
  obtain ⟨ioReadReqDataQ, put, ⟨⟩⟩ := Option.bind_eq_some_iff.mp later
  have items := (Fifo.enq_eq_some.mp put).2
  obtain ⟨bounded, room, writes, requests, config, called, stage, holds, fits⟩ := kept
  have taken := holds.taken
  cases stage with
  | none | asked | wanted | answered _ | responded _ =>
      have none : log.requested.length = log.sent.length := taken
      omega
  | taken =>
      have user : isUserAddr (s.call.reading.getD 0) := holds.users trivial
      have settled := holds.settled
      rw [if_pos user] at settled
      refine ⟨bounded, room, writes, requests, config, called, .answered data, ⟨holds.inside,
        holds.asked, holds.wanted, ?_, ?_, holds.responded, fun _ => user, ?_, ?_⟩, ?_⟩
      · change log.requested.length = (log.sent ++ [data]).length
        rw [List.length_append]
        exact taken
      · change ioReadReqDataQ.items = [data]
        rw [items, holds.answered]
        rfl
      · change userAnswers log.finished
            ++ (if isUserAddr (s.call.reading.getD 0) then [data] else [])
          = log.sent ++ [data]
        rw [if_pos user, ← settled, List.append_assoc]
        rfl
      · intro _ _ same
        cases same
      · exact fits.moves nofun nofun nofun

/-- An answer goes to the software. -/
theorem RegistersKept.relayIOReadResp (kept : RegistersKept s log)
    (fires : s.relayIOReadResp shmQueues = some s')
    : RegistersKept s' log := by
  obtain ⟨ioreq, _, data, ioReadReqDataQ, -, taken, ⟨-, rfl⟩ | ⟨-, rfl⟩⟩ :=
    Bluesim.relayIOReadResp_cases fires
  case inr => exact kept
  case inl =>
    have items := Fifo.deq_eq_some.mp taken
    obtain ⟨bounded, room, writes, requests, config, called, stage, holds, fits⟩ := kept
    have answered := holds.answered
    rw [items] at answered
    cases stage with
    | none | asked | wanted | taken | responded _ => cases answered
    | answered value =>
        obtain ⟨same, rest⟩ := List.cons.inj answered
        subst same
        have responded : s.memory.fifo .outfifo = [] := List.map_eq_nil_iff.mp holds.responded
        obtain ⟨out, infifo⟩ := bdpiIOReadResp_fifo responded
          (0#12 ++ (ioreq.addr + io_userspace_offset) ++ data)
        have user : isUserAddr (s.call.reading.getD 0) := holds.users trivial
        refine ⟨?_, ?_, ?_, ?_, config, called, .responded data, ⟨holds.inside, ?_, holds.wanted,
          holds.taken, rest, ?_, False.elim, holds.settled, ?_⟩, ?_⟩
        · rw [infifo]
          exact bounded
        · rw [infifo]
          exact room
        · rw [Bluesim.messages, infifo]
          exact writes
        · rw [Bluesim.messages, infifo]
          exact requests
        · rw [infifo]
          exact holds.asked
        · rw [out, List.map_singleton, truncate_response]
          rfl
        · exact fun config => absurd user config
        · exact fits.moves nofun nofun nofun

section Taken

variable {d : BitVec 64} {memory : ShmQueues} (kept : RegistersKept s log)
  (infifo : s.memory.fifo .infifo = d :: memory.fifo .infifo)
  (outfifo : memory.fifo .outfifo = s.memory.fifo .outfifo)

include kept infifo in
/-- What is kept, with the message that is taken in front. -/
theorem RegistersKept.oldest
    : (memory.fifo .infifo).length < shmPlaces
      ∧ log.delivered ++ s.hw.ioWriteQ.items ++ ((Bluesim.messageWrite d).toList
          ++ (memory.fifo .infifo ++ s.call.message).filterMap Bluesim.messageWrite)
        = log.written.filterMap userWrite
      ∧ log.requested ++ s.hw.ioReadReqQ.items.map IOReadReq.addr ++ ((messageRequest d).toList
          ++ (memory.fifo .infifo ++ s.call.message).filterMap messageRequest)
        = log.reads.filterMap userRead := by
  have bounded := kept.bounded
  have writes := kept.writes
  have requests := kept.requests
  rw [infifo, List.length_cons] at bounded
  rw [Bluesim.messages, infifo, List.cons_append, filterMap_cons_toList] at writes requests
  exact ⟨bounded, writes, requests⟩

include infifo in
/-- A read that is the oldest message is the one under way. -/
theorem ReadStage.Holds.oldest {stage : ReadStage} {addr : BitVec 32} {read : BitVec 20}
    (holds : stage.Holds addr s log) (isRead : Bluesim.messageRead d = some read)
    : stage = .asked ∧ read = addr.truncate 20
      ∧ (memory.fifo .infifo).filterMap Bluesim.messageRead = [] := by
  have asked := holds.asked
  rw [infifo, List.filterMap_cons, isRead] at asked
  cases stage with
  | none | wanted | taken | answered _ | responded _ => cases asked
  | asked =>
      obtain ⟨same, rest⟩ := List.cons.inj asked
      exact ⟨rfl, same, rest⟩

include kept infifo outfifo in
/-- A message that is no read is a write for the user's logic, or nothing that the engine acts on.
-/
theorem RegistersKept.takesWrite {ioWriteQ : Fifo IOWrite 2}
    (noRead : Bluesim.messageRead d = none)
    (put : ioWriteQ.items = s.hw.ioWriteQ.items ++ (Bluesim.messageWrite d).toList)
    : RegistersKept { s with memory, hw := { s.hw with ioWriteQ } } log := by
  obtain ⟨bounded, writes, requests⟩ := kept.oldest infifo
  obtain ⟨-, -, -, -, config, called, stage, holds, fits⟩ := kept
  refine ⟨bounded.le, fun _ _ _ => bounded.ne, ?_, ?_, config, called, stage,
    { holds with asked := ?_, responded := ?_ }, fits⟩
  · rw [← writes, ← List.append_assoc _ (Bluesim.messageWrite d).toList,
      List.append_assoc _ s.hw.ioWriteQ.items, ← put]
    rfl
  · rw [messageRequest_none noRead] at requests
    exact requests
  · have asked := holds.asked
    rw [infifo, List.filterMap_cons, noRead] at asked
    exact asked
  · rw [outfifo]
    exact holds.responded

include kept infifo outfifo in
/-- A read of the user region is a request for the user's logic. -/
theorem RegistersKept.takesUserRead {addr : BitVec 20} {ioReadReqQ : Fifo IOReadReq 2}
    (noWrite : Bluesim.messageWrite d = none) (isRead : Bluesim.messageRead d = some addr)
    (user : addr ≥ io_userspace_offset)
    (put
      : s.hw.ioReadReqQ.enq { (default : IOReadReq) with addr := addr - io_userspace_offset }
        = some ioReadReqQ)
    : RegistersKept { s with memory, hw := { s.hw with ioReadReqQ } } log := by
  obtain ⟨bounded, writes, requests⟩ := kept.oldest infifo
  obtain ⟨-, -, -, -, config, called, stage, holds, fits⟩ := kept
  obtain ⟨rfl, rfl, rest⟩ := holds.oldest infifo isRead
  have request : messageRequest d = some ((s.call.reading.getD 0).truncate 20
      - io_userspace_offset) := by
    rw [messageRequest, isRead, Option.bind_some, if_pos user]
  have inQ : s.hw.ioReadReqQ.items = [] := List.map_eq_nil_iff.mp holds.wanted
  have items := (Fifo.enq_eq_some.mp put).2
  have users := (truncate_ge_iff holds.inside).mp user
  rw [noWrite] at writes
  rw [request] at requests
  refine ⟨bounded.le, fun _ _ _ => bounded.ne, writes, ?_, config, called, .wanted,
    { holds with
      asked := rest, wanted := ?_, responded := ?_, users := fun _ => users, constant := nofun },
    fits.moves nofun nofun nofun⟩
  · rw [← requests, items, List.map_append]
    simp only [List.append_assoc]
    rfl
  · rw [items, inQ]
    rfl
  · rw [outfifo]
    exact holds.responded

include kept infifo outfifo in
/-- Another read is answered at once. -/
theorem RegistersKept.takesDeviceRead {addr : BitVec 20}
    (noWrite : Bluesim.messageWrite d = none) (isRead : Bluesim.messageRead d = some addr)
    (device : ¬addr ≥ io_userspace_offset)
    : RegistersKept { s with
        memory := shmQueues.bdpiIOReadResp memory (0#12 ++ addr ++ 0xc001d00d#32) } log := by
  obtain ⟨bounded, writes, requests⟩ := kept.oldest infifo
  obtain ⟨-, -, -, -, config, called, stage, holds, fits⟩ := kept
  obtain ⟨rfl, rfl, rest⟩ := holds.oldest infifo isRead
  have request : messageRequest d = none := by
    rw [messageRequest, isRead, Option.bind_some, if_neg device]
  have responded : memory.fifo .outfifo = [] :=
    outfifo.trans (List.map_eq_nil_iff.mp holds.responded)
  have users := mt (truncate_ge_iff holds.inside).mpr device
  have settled := holds.settled
  obtain ⟨out, same⟩ := bdpiIOReadResp_fifo responded
    (0#12 ++ (s.call.reading.getD 0).truncate 20 ++ 0xc001d00d#32)
  rw [noWrite] at writes
  rw [request] at requests
  rw [if_neg users] at settled
  refine ⟨?_, ?_, ?_, ?_, config, called, .responded 0xc001d00d#32,
    { holds with
      asked := ?_, responded := ?_, users := False.elim, settled := ?_, constant := ?_ },
    fits.moves nofun nofun nofun⟩
  · rw [same]
    exact bounded.le
  · rw [same]
    exact fun _ _ _ => bounded.ne
  · rw [Bluesim.messages, same]
    exact writes
  · rw [Bluesim.messages, same]
    exact requests
  · rw [same]
    exact rest
  · rw [out, List.map_singleton, truncate_response]
    rfl
  · rw [if_neg users]
    exact settled
  · intro _ data other
    cases other
    rfl

end Taken

/-- A message is taken: a write or a request for the user's logic, or a read that is answered at
once.
-/
theorem RegistersKept.receiveIo (kept : RegistersKept s log)
    (fires : s.receiveIo shmQueues = some s')
    : RegistersKept s' log := by
  obtain ⟨-, d, memory, taken, done⟩ := Bluesim.receiveIo_cases fires
  rcases bdpiIOData_cases taken with ⟨infifo, outfifo⟩ | ⟨rfl, noWrite, noRead⟩
  case inl =>
    rcases done with ⟨write, ioWriteQ, isWrite, noRead, put, rfl⟩
      | ⟨addr, ioReadReqQ, noWrite, isRead, user, put, rfl⟩
      | ⟨addr, noWrite, isRead, device, rfl⟩ | ⟨noWrite, noRead, rfl⟩
    · refine kept.takesWrite infifo outfifo noRead ?_
      rw [isWrite]
      exact (Fifo.enq_eq_some.mp put).2
    · exact kept.takesUserRead infifo outfifo noWrite isRead user put
    · exact kept.takesDeviceRead infifo outfifo noWrite isRead device
    · refine kept.takesWrite infifo outfifo noRead ?_
      rw [noWrite]
      exact (List.append_nil _).symm
  case inr =>
    rcases done with ⟨_, _, write, _⟩ | ⟨_, _, _, read, _⟩ | ⟨_, _, read, _⟩ | ⟨-, -, rfl⟩
    · cases write.symm.trans noWrite
    · cases read.symm.trans noRead
    · cases read.symm.trans noRead
    · exact kept

/-- A call goes on to its next use of a queue. -/
theorem RegistersKept.goesOn (kept : RegistersKept s log) {call : SoftwareCall}
    (message : call.message = s.call.message) (reading : call.reading = s.call.reading)
    (room : ∀ d reads, call = .push d reads → (s.memory.fifo .infifo).length ≠ shmPlaces)
    (next
      : ∀ stage : ReadStage, stage.Holds (s.call.reading.getD 0) s log → s.call.Fits stage →
          call.Fits stage)
    : RegistersKept { s with call } log := by
  obtain ⟨bounded, _, writes, requests, config, called, stage, holds, fits⟩ := kept
  have messages : Bluesim.messages { s with call } = s.messages :=
    congrArg (s.memory.fifo .infifo ++ ·) message
  refine ⟨bounded, room, ?_, ?_, config, ?_, stage, ?_, next stage holds fits⟩
  · rw [messages]
    exact writes
  · rw [messages]
    exact requests
  · dsimp only
    rw [reading]
    exact called
  · dsimp only
    rw [reading]
    exact ⟨holds.inside, holds.asked, holds.wanted, holds.taken, holds.answered, holds.responded,
      holds.users, holds.settled, holds.constant⟩

/-- A message is pushed, and a read waits for its answer. -/
theorem RegistersKept.push {q : ShmQueues} {dma : DmaRead} {hw : PcieCtrlBsim} {d : BitVec 64}
    {reads : Option (BitVec 32)} (kept : RegistersKept ⟨q, .push d reads, dma, hw⟩ log)
    : RegistersKept ⟨shmQueues.push .infifo q d, reads.elim .idle .empty, dma, hw⟩ log := by
  obtain ⟨bounded, room, writes, requests, config, called, stage, holds, same, message⟩ := kept
  subst same
  have places : ¬(q.fifo .infifo).length = shmPlaces := room d reads rfl
  have pushed : shmQueues.push .infifo q d = q.withFifo .infifo (q.fifo .infifo ++ [d]) :=
    if_neg places
  have infifo : (shmQueues.push .infifo q d).fifo .infifo = q.fifo .infifo ++ [d] := by
    rw [pushed, ShmQueues.withFifo_same]
  have outfifo : (shmQueues.push .infifo q d).fifo .outfifo = q.fifo .outfifo := by
    rw [pushed, ShmQueues.withFifo_other (by decide)]
  have bounded' : ((shmQueues.push .infifo q d).fifo .infifo).length ≤ shmPlaces := by
    change (q.fifo .infifo).length ≤ shmPlaces at bounded
    rw [infifo, List.length_append, List.length_singleton]
    omega
  have messages
      : Bluesim.messages ⟨shmQueues.push .infifo q d, reads.elim .idle .empty, dma, hw⟩
        = Bluesim.messages ⟨q, .push d reads, dma, hw⟩ := by
    have nothing : (reads.elim .idle .empty : SoftwareCall).message = [] := by
      cases reads <;> rfl
    rw [Bluesim.messages, infifo, nothing, List.append_nil]
    rfl
  have noPush : ∀ d' reads', (reads.elim .idle .empty : SoftwareCall) ≠ .push d' reads' := by
    cases reads <;> exact nofun
  have calls : (reads.elim .idle .empty : SoftwareCall).reading = reads := by
    cases reads <;> rfl
  have none : (q.fifo .infifo).filterMap Bluesim.messageRead = [] := holds.asked
  have asked : ((shmQueues.push .infifo q d).fifo .infifo).filterMap Bluesim.messageRead
      = (Bluesim.messageRead d).toList := by
    rw [infifo, filterMap_snoc, none]
    rfl
  have responded
      : ((shmQueues.push .infifo q d).fifo .outfifo).map (BitVec.truncate 32) = [] := by
    rw [outfifo]
    exact holds.responded
  rw [← messages] at writes requests
  refine ⟨bounded', fun d' reads' same => absurd same (noPush d' reads'), writes, requests, config,
    ?_, ?_⟩
  · dsimp only
    rw [calls]
    exact called
  · cases reads with
    | none =>
        have other : Bluesim.messageRead d = .none := message
        rw [other] at asked
        exact ⟨.none, { holds with asked, responded }, rfl⟩
    | some addr =>
        have read : d = readMessage addr := message
        have inside : addr.toNat < bar0_size := holds.inside
        rw [read, (messageRead_readMessage inside).2, ← read] at asked
        exact ⟨.asked, { holds with asked, responded, users := False.elim, constant := nofun },
          nofun⟩

/-- The answer is popped, and the read returns. -/
theorem RegistersKept.pop {q : ShmQueues} {dma : DmaRead} {hw : PcieCtrlBsim} {addr : BitVec 32}
    {data : BitVec 64} (kept : RegistersKept ⟨q, .pop addr data, dma, hw⟩ log)
    : RegistersKept ⟨shmQueues.pop .outfifo q, .idle, dma, hw⟩
        { log with finished := log.finished ++ [(addr, data.truncate 32)] } := by
  obtain ⟨bounded, room, writes, requests, config, called, stage, holds, fits⟩ := kept
  have same : stage = .responded (data.truncate 32) := fits
  subst same
  have infifo : (shmQueues.pop .outfifo q).fifo .infifo = q.fifo .infifo :=
    ShmQueues.withFifo_other (by decide) q _
  have outfifo : (shmQueues.pop .outfifo q).fifo .outfifo = (q.fifo .outfifo).tail :=
    ShmQueues.withFifo_same q _ _
  have responded : (q.fifo .outfifo).map (BitVec.truncate 32) = [data.truncate 32] :=
    holds.responded
  have messages : Bluesim.messages ⟨shmQueues.pop .outfifo q, .idle, dma, hw⟩
      = Bluesim.messages ⟨q, .pop addr data, dma, hw⟩ :=
    congrArg (· ++ []) infifo
  refine ⟨?_, fun _ _ same => (by cases same), ?_, ?_, ?_, ?_, .none,
    ⟨show (0#32).toNat < bar0_size by decide, ?_, holds.wanted, holds.taken, holds.answered, ?_,
      False.elim, ?_, fun _ _ same => by cases same⟩, rfl⟩
  · dsimp only
    rw [infifo]
    exact bounded
  · rw [messages]
    exact writes
  · rw [messages]
    exact requests
  · intro read member other
    rcases List.mem_append.mp member with earlier | last
    case inl => exact config read earlier other
    case inr =>
      cases List.mem_singleton.mp last
      exact holds.constant other _ rfl
  · change (log.finished ++ [(addr, data.truncate 32)]).map Prod.fst ++ [] = log.reads
    rw [List.append_nil, List.map_append]
    exact called
  · change ((shmQueues.pop .outfifo q).fifo .infifo).filterMap Bluesim.messageRead = []
    rw [infifo]
    exact holds.asked
  · change ((shmQueues.pop .outfifo q).fifo .outfifo).map (BitVec.truncate 32) = []
    rw [outfifo, List.map_tail, responded]
    rfl
  · change userAnswers (log.finished ++ [(addr, data.truncate 32)])
        ++ (if isUserAddr 0 then [] else []) = log.sent
    rw [ite_self, List.append_nil, userAnswers_snoc]
    exact holds.settled

/-- Every use of a queue by the software keeps it. -/
theorem RegistersKept.software (kept : RegistersKept s log)
    (fires : s.software shmQueues = some s')
    : RegistersKept s' (log.record s .software) := by
  obtain ⟨q, call, dma, hw⟩ := s
  unfold Bluesim.software at fires
  cases call with
  | idle => cases fires
  | full d reads =>
      dsimp only at fires
      split at fires
      next =>
        cases fires
        exact kept
      next room =>
        cases fires
        refine kept.goesOn rfl rfl ?_ (fun _ _ fits => fits)
        exact fun _ _ _ same => room (beq_iff_eq.mpr same)
  | push d reads =>
      cases fires
      cases reads <;> exact kept.push
  | empty addr =>
      dsimp only at fires
      split at fires
      next =>
        cases fires
        exact kept
      next some =>
        cases fires
        refine kept.goesOn rfl rfl (fun _ _ same => by cases same) ?_
        intro stage holds busy
        cases stage with
        | responded data => exact ⟨data, rfl⟩
        | none => exact absurd rfl busy
        | asked | wanted | taken | answered data =>
            exact absurd (List.isEmpty_iff.mpr (List.map_eq_nil_iff.mp holds.responded)) some
  | tail addr =>
      cases fires
      refine kept.goesOn rfl rfl (fun _ _ same => by cases same) ?_
      rintro stage holds ⟨data, rfl⟩
      have responded : (q.fifo .outfifo).map (BitVec.truncate 32) = [data] := holds.responded
      change ReadStage.responded data = .responded ((shmQueues.tail .outfifo q).truncate 32)
      cases items : q.fifo .outfifo with
      | nil =>
          rw [items] at responded
          cases responded
      | cons value rest =>
          rw [items, List.map_cons] at responded
          simp only [shmQueues, items, List.headD_cons, (List.cons.inj responded).1]
  | pop addr data =>
      cases fires
      exact kept.pop
  | interruptEmpty =>
      dsimp only at fires
      split at fires
      next =>
        cases fires
        exact kept.goesOn rfl rfl (fun _ _ same => by cases same) (fun _ _ fits => fits)
      next =>
        cases fires
        exact kept.goesOn rfl rfl (fun _ _ same => by cases same) (fun _ _ fits => fits)
  | interruptPop =>
      cases fires
      have framed : RegistersKept ⟨shmQueues.pop .interruptfifo q, .interruptPop, dma, hw⟩ log :=
        kept.frame (ShmQueues.withFifo_other (by decide) q _)
          (ShmQueues.withFifo_other (by decide) q _) rfl rfl rfl rfl
      exact framed.goesOn rfl rfl (fun _ _ same => by cases same) (fun _ _ fits => fits)

/-- The message of a call that starts is the last one under way. -/
theorem Bluesim.messages_starts (idle : s.call = .idle) (d : BitVec 64)
    (reads : Option (BitVec 32))
    : Bluesim.messages { s with call := .full d reads } = s.messages ++ [d] := by
  rw [Bluesim.messages, Bluesim.messages, idle]
  change s.memory.fifo .infifo ++ [d] = s.memory.fifo .infifo ++ [] ++ [d]
  rw [List.append_nil]

/-- A call of `writeWord` starts. -/
theorem RegistersKept.writeWord (kept : RegistersKept s log) {addr data : BitVec 32}
    (inside : addr.toNat < bar0_size)
    (fires : s.starts (.full (writeMessage addr data) none) = some s')
    : RegistersKept s' (log.record s (.writeWord addr data)) := by
  obtain ⟨idle, rfl⟩ := Bluesim.starts_eq_some.mp fires
  have messages := Bluesim.messages_starts idle (writeMessage addr data) none
  obtain ⟨isWrite, noRead⟩ :
      Bluesim.messageWrite (writeMessage addr data) = userWrite (addr, data)
        ∧ Bluesim.messageRead (writeMessage addr data) = none :=
    messageWrite_writeMessage inside
  obtain ⟨bounded, -, writes, requests, config, called, stage, holds, fits⟩ := kept
  rw [idle] at called holds fits
  have none : stage = .none := fits
  subst none
  refine ⟨bounded, nofun, ?_, ?_, config, called, .none, { holds with }, rfl, noRead⟩
  · rw [messages, filterMap_snoc, isWrite, ← List.append_assoc]
    change log.delivered ++ s.hw.ioWriteQ.items ++ s.messages.filterMap Bluesim.messageWrite
        ++ (userWrite (addr, data)).toList
      = (log.written ++ [(addr, data)]).filterMap userWrite
    rw [writes, filterMap_snoc]
  · rw [messages, filterMap_snoc, messageRequest_none noRead]
    exact (congrArg _ (List.append_nil _)).trans requests

/-- A call of `readWord` starts. -/
theorem RegistersKept.readWord (kept : RegistersKept s log) {addr : BitVec 32}
    (inside : addr.toNat < bar0_size)
    (fires : s.starts (.full (readMessage addr) (some addr)) = some s')
    : RegistersKept s' (log.record s (.readWord addr)) := by
  obtain ⟨idle, rfl⟩ := Bluesim.starts_eq_some.mp fires
  have messages := Bluesim.messages_starts idle (readMessage addr) (some addr)
  obtain ⟨noWrite, -⟩ := messageRead_readMessage inside
  obtain ⟨bounded, -, writes, requests, config, called, stage, holds, fits⟩ := kept
  rw [idle] at called holds fits
  have none : stage = .none := fits
  subst none
  have settled : userAnswers log.finished ++ (if isUserAddr 0 then [] else []) = log.sent :=
    holds.settled
  rw [ite_self] at settled
  refine ⟨bounded, nofun, ?_, ?_, config, ?_, .none,
    { holds with inside, users := False.elim, settled := ?_, constant := nofun }, rfl, rfl⟩
  · rw [messages, filterMap_snoc, noWrite]
    exact (congrArg _ (List.append_nil _)).trans writes
  · rw [messages, filterMap_snoc, messageRequest_readMessage inside, ← List.append_assoc]
    change log.requested ++ s.hw.ioReadReqQ.items.map IOReadReq.addr
        ++ s.messages.filterMap messageRequest ++ (userRead addr).toList
      = (log.reads ++ [addr]).filterMap userRead
    rw [requests, filterMap_snoc]
  · change log.finished.map Prod.fst ++ [addr] = log.reads ++ [addr]
    change log.finished.map Prod.fst ++ [] = log.reads at called
    rw [List.append_nil] at called
    rw [called]
  · change userAnswers log.finished ++ (if isUserAddr addr then [] else []) = log.sent
    rw [ite_self]
    exact settled

/-- Every allowed event keeps it. -/
theorem RegistersKept.step {e : BluesimEvent} (kept : RegistersKept s log)
    (allowed : RegisterCalls (s, log) e) (fires : s.step shmQueues e = some s')
    : RegistersKept s' (log.record s e) := by
  cases e with
  | writeWord addr data => exact kept.writeWord allowed fires
  | readWord addr => exact kept.readWord allowed fires
  | waitInterrupt =>
      obtain ⟨idle, rfl⟩ := Bluesim.starts_eq_some.mp fires
      refine kept.goesOn ?_ ?_ nofun ?_
      · rw [idle]
        rfl
      · rw [idle]
        rfl
      · rw [idle]
        exact fun _ _ fits => fits
  | software => exact kept.software fires
  | storeByte i b =>
      simp only [Bluesim.step] at fires
      split at fires
      next =>
        cases fires
        exact kept.frame rfl rfl rfl rfl rfl rfl
      next => cases fires
  | receiveDmaRead =>
      obtain ⟨-, ⟨-, rfl⟩ | ⟨word, -, -, ⟨-, _, -, rfl⟩ | ⟨-, rfl⟩⟩⟩ :=
        Bluesim.receiveDmaRead_cases fires
      · exact kept
      all_goals exact kept.frame rfl rfl rfl rfl rfl rfl
  | receiveIo => exact kept.receiveIo fires
  | relayIOReadResp => exact kept.relayIOReadResp fires
  | dataReceive => exact kept.dataReceive fires
  | dataReq => exact kept.dataReq fires
  | dataSend ioreq data => exact kept.dataSend allowed fires
  | dmaWriteReq | dmaReadReq =>
      simp only [Bluesim.step, Bluesim.dmaWriteReq, Bluesim.dmaReadReq] at fires
      split at fires
      next =>
        cases fires
        exact kept.frame rfl rfl rfl rfl rfl rfl
      next => cases fires
  | dmaWriteData data =>
      simp only [Bluesim.step, Bluesim.dmaWriteData] at fires
      split at fires
      next =>
        cases fires
        exact kept.frame rfl rfl rfl rfl rfl rfl
      next => cases fires
  | dmaReadWord =>
      obtain ⟨⟨_, _⟩, -, ⟨⟩⟩ := Option.bind_eq_some_iff.mp fires
      exact kept.frame rfl rfl rfl rfl rfl rfl
  | assertInterrupt =>
      simp only [Bluesim.step, Bluesim.assertInterrupt] at fires
      split at fires
      next ready =>
        cases fires
        have others {port : ShmPort} (differ : port ≠ .interruptfifo)
            : (shmQueues.bdpiAssertInterrupt s.memory).fifo port = s.memory.fifo port := by
          unfold SharedMemory.bdpiAssertInterrupt
          split
          next => rfl
          next =>
            simp only [shmQueues]
            split
            next => rfl
            next => exact ShmQueues.withFifo_other differ _ _
        exact kept.frame (others (by decide)) (others (by decide)) rfl rfl rfl rfl
      next => cases fires

end Steps

-----------------------------------------------------------------------------------------
-- Runs
-----------------------------------------------------------------------------------------

/-- What is kept says how registers are served. -/
theorem RegistersKept.served {s : Bluesim ShmWords} {t : Bluesim ShmQueues} {log : RegisterLog}
    (kept : RegistersKept t log) (models : s.Models t)
    : RegistersServed s log := by
  obtain ⟨bounded, room, writes, requests, config, called, stage, holds, fits⟩ := kept
  refine ⟨?_, ?_, ?_, ?_, config, ?_, ?_⟩
  · rw [← writes, List.append_assoc]
    exact List.prefix_append _ _
  · rw [← requests, List.append_assoc]
    exact List.prefix_append _ _
  · rw [← called]
    exact List.prefix_append _ _
  · rw [← holds.settled]
    exact List.prefix_append _ _
  · intro idle
    rw [models.call] at idle
    rw [idle] at fits holds
    have none : stage = .none := fits
    subst none
    have settled := holds.settled
    have asked : (t.memory.fifo .infifo).filterMap Bluesim.messageRead = [] := holds.asked
    have wanted : t.hw.ioReadReqQ.items.map IOReadReq.addr = [] := holds.wanted
    have messages : t.messages = t.memory.fifo .infifo := by
      rw [Bluesim.messages, idle]
      exact List.append_nil _
    have noRequest : (t.memory.fifo .infifo).filterMap messageRequest = [] := by
      unfold messageRequest
      rw [← List.filterMap_filterMap, asked]
      rfl
    refine ⟨?_, ?_, ?_⟩
    · rw [← called, idle]
      exact (List.append_nil _).symm
    · rw [← settled]
      change _ = userAnswers log.finished ++ (if isUserAddr 0 then [] else [])
      rw [ite_self, List.append_nil]
    · rw [← requests, messages, wanted, noRequest, List.append_nil, List.append_nil]
  · intro idle none empty
    rw [models.call] at idle
    rw [models.memory.empty] at none
    have noMessage : t.messages = [] := by
      rw [Bluesim.messages, idle, List.isEmpty_iff.mp none]
      rfl
    rw [← writes, noMessage, ← models.hw, empty]
    simp only [List.append_nil, List.filterMap_nil]

/-- What is recorded does not depend on the shared memory. -/
theorem Bluesim.Models.record {s : Bluesim ShmWords} {t : Bluesim ShmQueues} (models : s.Models t)
    (e : BluesimEvent) (log : RegisterLog)
    : log.record s e = log.record t e := by
  unfold RegisterLog.record
  rw [models.hw, models.call]

theorem RegisterCalls.inBuffer {μ : Type} {state : Bluesim μ × RegisterLog} {e : BluesimEvent}
    (allowed : RegisterCalls state e)
    : e.InBuffer := by
  cases e with
  | writeWord | readWord | dataSend => exact trivial
  | _ => exact allowed

/-- A simulation serves register accesses: in every run, whatever the user's logic does and in
whatever order the rules fire, the writes are delivered in order, each once, and each read returns
the data sent for it.
-/
theorem registers_served {state : Bluesim ShmWords × RegisterLog}
    (run : Reach (traced (Bluesim.step shmWords) RegisterLog.record) RegisterCalls
      (bluesim, .start) state)
    : RegistersServed state.1 state.2 := by
  have simulates : Simulates (traced (Bluesim.step shmWords) RegisterLog.record)
      (traced (Bluesim.step shmQueues) RegisterLog.record) RegisterCalls
      (fun state state' => (state.1.Models state'.1 ∧ state.1.InBuffer) ∧ state.2 = state'.2) :=
    bluesim_simulates.traced RegisterCalls.inBuffer (fun e log related => related.1.record e log)
  have allowed : ∀ {state : Bluesim ShmWords × RegisterLog}
      {state' : Bluesim ShmQueues × RegisterLog} {e : BluesimEvent},
      (state.1.Models state'.1 ∧ state.1.InBuffer) ∧ state.2 = state'.2 →
      RegisterCalls state e → RegisterCalls state' e := by
    rintro ⟨s, log⟩ ⟨t, log'⟩ e ⟨-, rfl⟩ allowed
    cases e <;> exact allowed
  let queues : Bluesim ShmQueues × RegisterLog := (.reset ⟨fun _ => [], fun _ => 0⟩, .start)
  have start : (bluesim.Models queues.1 ∧ bluesim.InBuffer) ∧ RegisterLog.start = queues.2 :=
    ⟨bluesim_related, rfl⟩
  obtain ⟨⟨t, log⟩, run', ⟨models, -⟩, same⟩ := simulates.reach allowed start run
  have kept : RegistersKept t log := by
    refine run'.invariant (P := fun state => RegistersKept state.1 state.2) registersKept_reset ?_
    intro state e state' kept allowed fires
    obtain ⟨fired, recorded⟩ := traced_eq_some.mp fires
    rw [recorded]
    exact kept.step allowed fired
  rw [same]
  exact kept.served models

instance (state : Bluesim ShmWords × RegisterLog) (e : BluesimEvent)
    : Decidable (RegisterCalls state e) := by
  apply BluesimEvent.casesOn (motive := fun e => Decidable (RegisterCalls state e)) e <;>
    intros <;> unfold RegisterCalls <;> infer_instance

/-- A write, and a read that the user's logic answers. -/
theorem registers_served_readBack
    : ∃ state : Bluesim ShmWords × RegisterLog,
        Reach (traced (Bluesim.step shmWords) RegisterLog.record) RegisterCalls
          (bluesim, .start) state
        ∧ (state.2.delivered, state.2.finished) = ([⟨4, 7⟩], [(16388, 9)])
        ∧ RegistersServed state.1 state.2 := by
  obtain ⟨state, run, seen⟩ := exec_reach_map
    (traced (Bluesim.step shmWords) RegisterLog.record) RegisterCalls (bluesim, .start)
    [.writeWord 16388 7, .software, .software, .receiveIo, .readWord 16388, .software, .software,
      .dataReceive, .receiveIo, .dataReq, .dataSend default 9, .relayIOReadResp, .software,
      .software, .software]
    (fun state => (state.2.delivered, state.2.finished)) ([⟨4, 7⟩], [(16388, 9)])
    (by decide +kernel)
  exact ⟨state, run, seen, registers_served run⟩

end BluespecPcie

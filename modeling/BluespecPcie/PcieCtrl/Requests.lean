import BluespecPcie.PcieCtrl.Realignment
import BluespecPcie.PcieCtrl.Transmit

/-! Host requests inside the device: what answers each of them, and how they move. -/

namespace BluespecPcie

open Bluespec

-----------------------------------------------------------------------------------------
-- Requests and their answers
-----------------------------------------------------------------------------------------

/-- The BAR0 offset a request beat addresses. -/
def internalAddr (tlp : BitVec 128) : BitVec 20 := (requestAddr tlp).truncate 20

/-- The word of the configuration buffer a request beat addresses. -/
def configWord (tlp : BitVec 128) : BitVec 12 := (internalAddr tlp >>> 2).truncate 12

/-- The offsets `filterStatReadTLP` answers itself. -/
def isStatusAddr (internalAddr : BitVec 20) : Bool :=
  internalAddr == 0 || internalAddr == 4 || internalAddr == io_userspace_offset - 8
    || internalAddr == io_userspace_offset - 4

/-- What sends the completion of a request: none for a posted write. -/
def answerSource (tlp : BitVec 128) : Option TlpSource :=
  if isRead (tlpType tlp) then
    if isStatusAddr (internalAddr tlp) then some .status
    else if internalAddr tlp < io_userspace_offset then some .config
    else some .user
  else if tlpType tlp = type_wr32_io then some .ioWrite
  else none

/-- Requester ID, tag and lower address of a request, as DW 2 of a completion has them. -/
def requestId (tlp : BitVec 128) : BitVec 32 :=
  requesterID tlp ++ requestTag tlp ++ 0#1 ++ ((requestAddr tlp).truncate 7 : BitVec 7)

/-- Requester ID, tag and lower address of a completion. -/
def completionId (b : SendTLP) : BitVec 32 := dword b.tlp 2

/-- The data of a completion. -/
def completionData (b : SendTLP) : BitVec 32 := reverseEndian (dword b.tlp 3)

/-- Requester ID, tag and lower address of a read of the configuration buffer. -/
def configReadId (r : IOReadReq) : BitVec 32 :=
  r.requesterID ++ r.tag ++ 0#1 ++ (r.addr.truncate 7 : BitVec 7)

/-- Requester ID, tag and lower address of a read of the user region. -/
def userReadId (r : IOReadReq) : BitVec 32 :=
  r.requesterID ++ r.tag ++ 0#1 ++ ((r.addr + io_userspace_offset).truncate 7 : BitVec 7)

/-- The sources that send completions. -/
def TlpSource.answers : TlpSource → Bool
  | .status | .ioWrite | .config | .user => true
  | .readRequest | .write => false

/-- Byte order is reversed twice. -/
theorem reverseEndian_reverseEndian (d : BitVec 32) : reverseEndian (reverseEndian d) = d := by
  apply BitVec.eq_of_getLsbD_eq
  intro i within
  simp only [reverseEndian, BitVec.getLsbD_append, BitVec.getLsbD_extractLsb]
  grind

/-- The identity and data that `completionTLP` puts into a beat. -/
theorem completionTLP_fields (completer rid : BitVec 16) (tag : BitVec 8) (tc : BitVec 3)
    (td ep : BitVec 1) (attr : BitVec 2) (lower : BitVec 7) (data : BitVec 32)
    : completionId (completionTLP completer rid tag tc td ep attr lower data)
        = rid ++ tag ++ 0#1 ++ lower
      ∧ completionData (completionTLP completer rid tag tc td ep attr lower data) = data := by
  constructor
  · exact (dword_packDWs ..).2.2.1
  · rw [completionData, completionTLP, (dword_packDWs ..).2.2.2, reverseEndian_reverseEndian]

/-- The identity of the completion of an I/O write is that of its request. -/
theorem completionId_ioWriteCompletion (s : PcieCtrl) (tlp : BitVec 128)
    : completionId (s.ioWriteCompletion tlp) = requestId tlp :=
  (dword_packDWs ..).2.2.1

/-- The identity and data of the completion of a status read. -/
theorem statusCompletion_fields (s : PcieCtrl) (tlp : BitVec 128) (data : BitVec 32)
    : completionId (s.statusCompletion tlp data) = requestId tlp
      ∧ completionData (s.statusCompletion tlp data) = data :=
  completionTLP_fields ..

/-- The identity and data of the completion of a read of the configuration buffer. -/
theorem configCompletion_fields (s : PcieCtrl) (r : IOReadReq) (v : BitVec 32)
    : completionId (s.configCompletion r v) = configReadId r
      ∧ completionData (s.configCompletion r v) = v :=
  completionTLP_fields ..

/-- The identity and data of the completion of a read of the user region. -/
theorem userCompletion_fields (s : PcieCtrl) (r : IOReadReq) (data : BitVec 32)
    : completionId (s.userCompletion r data) = userReadId r
      ∧ completionData (s.userCompletion r data) = data :=
  completionTLP_fields ..

/-- The request `procTLP` makes of a read keeps its identity, in either region. -/
theorem readRequest_id (tlp : BitVec 128)
    : configReadId (PcieCtrl.readRequest tlp 0) = requestId tlp
      ∧ userReadId (PcieCtrl.readRequest tlp io_userspace_offset) = requestId tlp := by
  have lower (addr : BitVec 32)
      : ((addr.truncate 20 : BitVec 20).truncate 7 : BitVec 7) = addr.truncate 7 := by
    simp only [BitVec.truncate_eq_setWidth]
    rw [BitVec.setWidth_setWidth_of_le _ (by decide)]
  constructor
  · have same (x : BitVec 20) : x - 0 = x := BitVec.sub_zero x
    simp only [configReadId, PcieCtrl.readRequest, requestId, same, lower]
  · simp only [userReadId, PcieCtrl.readRequest, requestId, BitVec.sub_add_cancel, lower]

/-- `statusRegister` answers exactly the status addresses. -/
theorem statusRegister_isSome (s : PcieCtrl) (addr : BitVec 20)
    : (s.statusRegister addr).isSome = isStatusAddr addr := by
  simp only [PcieCtrl.statusRegister, isStatusAddr]
  split_ifs <;> simp_all

-----------------------------------------------------------------------------------------
-- The requests a device holds
-----------------------------------------------------------------------------------------

/-- The part of the device that requests pass through, its queues as lists, oldest first. -/
structure RequestView where
  tlpQ : List (BitVec 128)
  tlp2Q : List (BitVec 128)
  tlp3Q : List (BitVec 128)
  mem : BitVec 12 → BitVec 32
  ioReadQ : List IOReadReq
  respA : List (BitVec 32)
  userReads : List IOReadReq
  userWrites : List IOWrite
  userReadEmit : BitVec 32
  userWriteEmit : BitVec 32

/-- What a device shows of its request path. -/
def PcieCtrl.requests (s : PcieCtrl) : RequestView where
  tlpQ := s.rx.tlpQ.items
  tlp2Q := s.rx.tlp2Q.items
  tlp3Q := s.rx.tlp3Q.items
  mem := s.pages.configBuffer.mem
  ioReadQ := s.io.ioReadQ.items
  respA := s.pages.configBuffer.respA.items
  userReads := s.io.userReadQ2.items ++ s.io.userReadQ1.items ++ s.io.userReadQ0.items
  userWrites := s.io.userWrite2Q.items ++ s.io.userWriteQ.items ++ s.io.userWrite1Q.items
  userReadEmit := s.io.userReadEmit
  userWriteEmit := s.io.userWriteEmit

/-- A read or write request in one beat, from byte 0. -/
def RequestBeat (b : RxBeat) : Prop :=
  b.sof_right = true ∧ (isRead (tlpType b.tlp) = true ∨ isWrite (tlpType b.tlp) = true)

instance (b : RxBeat) : Decidable (RequestBeat b) := inferInstanceAs (Decidable (_ ∧ _))

/-- The core delivers requests only. -/
def ReceivesRequests : Event → Prop
  | .recvTLP b => RequestBeat b
  | _ => True

instance (e : Event) : Decidable (ReceivesRequests e) := by
  cases e <;> unfold ReceivesRequests <;> infer_instance

/-- The queues hold requests only, each where it may be. -/
structure RequestView.Placed (v : RequestView) : Prop where
  inTlpQ : ∀ tlp ∈ v.tlpQ, isRead (tlpType tlp) = true ∨ isWrite (tlpType tlp) = true
  inTlp2Q : ∀ tlp ∈ v.tlp2Q,
    (isRead (tlpType tlp) = true ∨ isWrite (tlpType tlp) = true)
    ∧ answerSource tlp ≠ some .status
  inTlp3Q : ∀ tlp ∈ v.tlp3Q, isWrite (tlpType tlp) = true
  paired : v.ioReadQ.length = v.respA.length

/-- The parser is between TLPs and only requests are under way. -/
structure RequestsOnly (s : PcieCtrl) : Prop where
  aligned : s.rx.realign.Aligned
  idle : s.rx.completionRecvLength = 0#10
  placed : s.requests.Placed

/-- The effect of a write that leaves `tlp3Q`. -/
def RequestView.write (v : RequestView) (tlp : BitVec 128) : RequestView :=
  if internalAddr tlp = 0 then { v with userReadEmit := 0, userWriteEmit := 0 }
  else if internalAddr tlp < io_userspace_offset then
    { v with mem := Function.update v.mem (configWord tlp) (reverseEndian (dword tlp 3)) }
  else { v with userWrites := v.userWrites ++ [PcieCtrl.ioWrite tlp] }

/-- What an event does besides offering a completion: a request received, a word of the
configuration buffer looked up for a read, a read or write the user took, or a read the user
answered.
-/
inductive RequestCall where
  | none
  | received (tlp : BitVec 128)
  | lookedUp (tlp : BitVec 128) (x : BitVec 32)
  | took (r : IOReadReq)
  | answered (r : IOReadReq)
  | delivered (w : IOWrite)
deriving DecidableEq

/-- The call an event makes. -/
def PcieCtrl.requestCall (s : PcieCtrl) : Event → RequestCall
  | .recvTLP b => match (s.rx.realign.next b).2 with
      | some (tlp, _) => .received tlp
      | none => .none
  | .procTLP => match s.rx.tlp2Q.first with
      | some tlp =>
          if answerSource tlp = some .config then
            .lookedUp tlp (s.pages.configBuffer.mem (configWord tlp))
          else .none
      | none => .none
  | .dataReq => match s.io.userReadQ2.first with
      | some r => .took r
      | none => .none
  | .dataSend ioreq _ => .answered ioreq
  | .dataReceive => match s.io.userWrite2Q.first with
      | some w => .delivered w
      | none => .none
  | _ => .none

/-- What an event can do to the requests, with the completion it offers and the call it makes.
-/
inductive RequestStep (v : RequestView)
    : RequestView → Option (TlpSource × SendTLP) → RequestCall → Prop
  | idle {offer : Option (TlpSource × SendTLP)}
    (dma : ∀ source tlp, offer = some (source, tlp) → source.answers = false)
    : RequestStep v v offer .none
  | receive {tlp : BitVec 128}
    (request : isRead (tlpType tlp) = true ∨ isWrite (tlpType tlp) = true)
    : RequestStep v { v with tlpQ := v.tlpQ ++ [tlp] } none (.received tlp)
  | status {tlp : BitVec 128} {rest : List (BitVec 128)} {b : SendTLP}
    (head : v.tlpQ = tlp :: rest) (source : answerSource tlp = some .status)
    (id : completionId b = requestId tlp)
    (readEmit : internalAddr tlp = io_userspace_offset - 8 →
      completionData b = v.userReadEmit)
    (writeEmit : internalAddr tlp = io_userspace_offset - 4 →
      completionData b = v.userWriteEmit)
    : RequestStep v { v with tlpQ := rest } (some (.status, b)) .none
  | pass {tlp : BitVec 128} {rest : List (BitVec 128)} (head : v.tlpQ = tlp :: rest)
    (source : answerSource tlp ≠ some .status)
    : RequestStep v { v with tlpQ := rest, tlp2Q := v.tlp2Q ++ [tlp] } none .none
  | configRead {tlp : BitVec 128} {rest : List (BitVec 128)} (head : v.tlp2Q = tlp :: rest)
    (source : answerSource tlp = some .config)
    : RequestStep v
        { v with
          tlp2Q := rest
          ioReadQ := v.ioReadQ ++ [PcieCtrl.readRequest tlp 0]
          respA := v.respA ++ [v.mem (configWord tlp)] } none
        (.lookedUp tlp (v.mem (configWord tlp)))
  | userRead {tlp : BitVec 128} {rest : List (BitVec 128)} (head : v.tlp2Q = tlp :: rest)
    (source : answerSource tlp = some .user)
    : RequestStep v
        { v with
          tlp2Q := rest
          userReads := v.userReads ++ [PcieCtrl.readRequest tlp io_userspace_offset] } none .none
  | write {tlp : BitVec 128} {rest : List (BitVec 128)} (head : v.tlp2Q = tlp :: rest)
    (write : isWrite (tlpType tlp) = true)
    : RequestStep v { v with tlp2Q := rest, tlp3Q := v.tlp3Q ++ [tlp] } none .none
  | config {r : IOReadReq} {x : BitVec 32} {rs : List IOReadReq} {xs : List (BitVec 32)}
    {b : SendTLP} (head : v.ioReadQ = r :: rs) (response : v.respA = x :: xs)
    (id : completionId b = configReadId r) (data : completionData b = x)
    : RequestStep v { v with ioReadQ := rs, respA := xs } (some (.config, b)) .none
  | ioWrite {tlp : BitVec 128} {rest : List (BitVec 128)} {b : SendTLP}
    (head : v.tlp3Q = tlp :: rest) (source : answerSource tlp = some .ioWrite)
    (id : completionId b = requestId tlp)
    : RequestStep v ({ v with tlp3Q := rest }.write tlp) (some (.ioWrite, b)) .none
  | posted {tlp : BitVec 128} {rest : List (BitVec 128)}
    (head : v.tlp3Q = tlp :: rest) (source : answerSource tlp = none)
    : RequestStep v ({ v with tlp3Q := rest }.write tlp) none .none
  | dataReq {r : IOReadReq} {rest : List IOReadReq} (head : v.userReads = r :: rest)
    : RequestStep v { v with userReads := rest, userReadEmit := v.userReadEmit + 1 } none
        (.took r)
  | dataSend {ioreq : IOReadReq} {b : SendTLP} (id : completionId b = userReadId ioreq)
    : RequestStep v v (some (.user, b)) (.answered ioreq)
  | dataReceive {w : IOWrite} {rest : List IOWrite} (head : v.userWrites = w :: rest)
    : RequestStep v { v with userWrites := rest, userWriteEmit := v.userWriteEmit + 1 } none
        (.delivered w)

/-- A status completion answers the read at the head of `tlpQ`, with the emit counters as they
are.
-/
theorem RequestStep.status_value {v v' : RequestView} {b : SendTLP} {call : RequestCall}
    (moves : RequestStep v v' (some (.status, b)) call)
    : ∃ tlp ∈ v.tlpQ, answerSource tlp = some .status
        ∧ (internalAddr tlp = io_userspace_offset - 8 → completionData b = v.userReadEmit)
        ∧ (internalAddr tlp = io_userspace_offset - 4 → completionData b = v.userWriteEmit) := by
  cases moves with
  | idle dma => cases dma _ _ rfl
  | @status tlp rest b head source _ readEmit writeEmit =>
      exact ⟨tlp, by simp [head], source, readEmit, writeEmit⟩

/-- At reset the device holds no request. -/
theorem RequestsOnly.init (p : PowerUp)
    : RequestsOnly (mkPcieCtrl p) :=
  ⟨Realign.aligned_reset, rfl,
    ⟨by simp [PcieCtrl.requests, mkPcieCtrl], by simp [PcieCtrl.requests, mkPcieCtrl],
      by simp [PcieCtrl.requests, mkPcieCtrl], rfl⟩⟩

section Steps

variable {s s' : PcieCtrl} {tlp : BitVec 128}

/-- A read is no write. -/
theorem isRead_excludes (read : isRead (tlpType tlp) = true)
    : isWrite (tlpType tlp) = false := by
  simp only [isRead, Bool.or_eq_true, beq_iff_eq] at read
  rcases read with io | mem
  · rw [io]
    rfl
  · rw [mem]
    rfl

/-- A read or a write is no completion. -/
theorem request_notCompletion
    (request : isRead (tlpType tlp) = true ∨ isWrite (tlpType tlp) = true)
    : ¬isCompletion (tlpType tlp) = true := by
  simp only [isRead, isWrite, Bool.or_eq_true, beq_iff_eq] at request
  rcases request with (kind | kind) | (kind | kind) <;> rw [kind] <;> decide

/-- What answers a write: an I/O write gets a completion, a memory write none. -/
theorem answerSource_write (write : isWrite (tlpType tlp) = true)
    : answerSource tlp = if tlpType tlp = type_wr32_io then some .ioWrite else none := by
  have notRead : ¬isRead (tlpType tlp) = true := by
    intro read
    rw [isRead_excludes read] at write
    cases write
  rw [answerSource, if_neg notRead]

/-- What answers a read. -/
theorem answerSource_read (read : isRead (tlpType tlp) = true)
    : answerSource tlp
      = if isStatusAddr (internalAddr tlp) then some .status
        else if internalAddr tlp < io_userspace_offset then some .config
        else some .user := by
  rw [answerSource, if_pos read]

/-- A request with a source that answers reads is a read. -/
theorem isRead_of_source {source : TlpSource}
    (some : answerSource tlp = some source) (reads : source ≠ .ioWrite)
    : isRead (tlpType tlp) = true := by
  by_contra notRead
  rw [answerSource, if_neg notRead] at some
  split at some
  next => exact reads (Option.some.inj some).symm
  next => cases some

open PcieCtrl in
/-- A header beat is answered from a status register or passed on. -/
theorem request_filter (only : RequestsOnly s) (fires : s.filterStatReadTLP = some s')
    : RequestStep s.requests s'.requests (s.offered .filterStatReadTLP) .none := by
  obtain ⟨_, tlp, tlpQ, keep, tlpKeepQ, taken, _, outcome⟩ := filterStatReadTLP_cases fires
  have first : s.rx.tlpQ.first = some tlp := Fifo.first_eq_some.mpr ⟨_, taken⟩
  have request := only.placed.inTlpQ tlp (by simp [PcieCtrl.requests, taken])
  rcases outcome with ⟨data, sendTLPm, read, status, _, rfl⟩ | ⟨tlp2Q, noStatus, _, put, rfl⟩
    | ⟨_, _, _, completion, _⟩
  · have offer : s.offered .filterStatReadTLP = some (.status, s.statusCompletion tlp data) := by
      simp [offered, first, read, status]
    have source : answerSource tlp = some .status := by
      rw [answerSource_read read, if_pos]
      rw [← statusRegister_isSome s]
      exact Option.isSome_iff_exists.mpr ⟨data, status⟩
    obtain ⟨id, value⟩ := statusCompletion_fields s tlp data
    rw [offer]
    refine RequestStep.status taken source id ?_ ?_
    · intro emit
      rw [show (requestAddr tlp).truncate 20 = io_userspace_offset - 8 from emit] at status
      rw [value]
      exact (Option.some.inj status).symm
    · intro emit
      rw [show (requestAddr tlp).truncate 20 = io_userspace_offset - 4 from emit] at status
      rw [value]
      exact (Option.some.inj status).symm
  · have offer : s.offered .filterStatReadTLP = none := by
      simp only [offered, first, Option.bind_eq_bind, Option.bind_some]
      split
      next read => simp [noStatus read]
      next => rfl
    have source : answerSource tlp ≠ some .status := by
      rcases request with read | write
      · have none := statusRegister_isSome s (internalAddr tlp)
        rw [internalAddr, noStatus read] at none
        rw [answerSource_read read, if_neg (by rw [internalAddr, ← none]; decide)]
        split <;> decide
      · rw [answerSource_write write]
        split <;> decide
    have view : ({ s with
          rx.tlpQ := tlpQ, rx.tlpKeepQ := tlpKeepQ, rx.tlp2Q := tlp2Q } : PcieCtrl).requests
        = { s.requests with
            tlpQ := tlpQ.items, tlp2Q := s.requests.tlp2Q ++ [tlp] } := by
      simp [PcieCtrl.requests, put]
    rw [offer, view]
    exact .pass taken source
  · exact absurd completion (request_notCompletion request)

open PcieCtrl in
/-- A request goes where it is answered, or on to `procIOWrite`. -/
theorem request_proc (only : RequestsOnly s) (fires : s.procTLP = some s')
    : RequestStep s.requests s'.requests none (s.requestCall .procTLP) := by
  obtain ⟨_, tlp, tlp2Q, taken, outcome⟩ := procTLP_cases fires
  have first : s.rx.tlp2Q.first = some tlp := Fifo.first_eq_some.mpr ⟨_, taken⟩
  obtain ⟨request, notStatus⟩ := only.placed.inTlp2Q tlp (by simp [PcieCtrl.requests, taken])
  rcases outcome with ⟨respA, ioReadQ, read, config, resp, put, rfl⟩
    | ⟨userReadQ0, read, user, put, rfl⟩ | ⟨tlp3Q, _, write, put, rfl⟩ | ⟨notRead, notWrite, rfl⟩
  · have source : answerSource tlp = some .config := by
      rw [answerSource_read read] at notStatus ⊢
      split at notStatus
      next => exact absurd rfl notStatus
      next noStatus =>
        change internalAddr tlp < io_userspace_offset at config
        rw [if_neg noStatus, if_pos config]
    have view : ({ s with
          rx.tlp2Q := tlp2Q
          pages.configBuffer.respA := respA
          io.ioReadQ := ioReadQ } : PcieCtrl).requests
        = { s.requests with
            tlp2Q := tlp2Q.items
            ioReadQ := s.requests.ioReadQ ++ [PcieCtrl.readRequest tlp 0]
            respA := s.requests.respA ++ [s.requests.mem (configWord tlp)] } := by
      simp [PcieCtrl.requests, put, resp, configWord, internalAddr]
    have call : s.requestCall .procTLP
        = .lookedUp tlp (s.requests.mem (configWord tlp)) := by
      simp only [requestCall, first, source, if_true]
      rfl
    rw [view, call]
    exact .configRead taken source
  · have source : answerSource tlp = some .user := by
      rw [answerSource_read read] at notStatus ⊢
      split at notStatus
      next => exact absurd rfl notStatus
      next noStatus =>
        change ¬internalAddr tlp < io_userspace_offset at user
        rw [if_neg noStatus, if_neg user]
    have view : ({ s with rx.tlp2Q := tlp2Q, io.userReadQ0 := userReadQ0 } : PcieCtrl).requests
        = { s.requests with
            tlp2Q := tlp2Q.items
            userReads := s.requests.userReads
              ++ [PcieCtrl.readRequest tlp io_userspace_offset] } := by
      simp [PcieCtrl.requests, put]
    have call : s.requestCall .procTLP = .none := by
      simp [requestCall, first, source]
    rw [view, call]
    exact .userRead taken source
  · have view : ({ s with rx.tlp2Q := tlp2Q, rx.tlp3Q := tlp3Q } : PcieCtrl).requests
        = { s.requests with
            tlp2Q := tlp2Q.items, tlp3Q := s.requests.tlp3Q ++ [tlp] } := by
      simp [PcieCtrl.requests, put]
    have call : s.requestCall .procTLP = .none := by
      have source := answerSource_write write
      simp only [requestCall, first]
      rw [if_neg]
      rw [source]
      split <;> decide
    rw [view, call]
    exact .write taken write
  · exact absurd request (by simp [notRead, notWrite])

open PcieCtrl in
/-- A write takes effect, and an I/O write is answered. -/
theorem request_write (only : RequestsOnly s) (fires : s.procIOWrite = some s')
    : RequestStep s.requests s'.requests (s.offered .procIOWrite) .none := by
  obtain ⟨tlp, tlp3Q, sendTLPm, taken, answer, applied⟩ := procIOWrite_cases fires
  have first : s.rx.tlp3Q.first = some tlp := Fifo.first_eq_some.mpr ⟨_, taken⟩
  have write := only.placed.inTlp3Q tlp (by simp [PcieCtrl.requests, taken])
  have source := answerSource_write write
  have view : s'.requests = ({ s.requests with tlp3Q := tlp3Q.items }).write tlp := by
    rcases applied with ⟨reset, rfl⟩ | ⟨notReset, config, rfl⟩
      | ⟨notReset, user, userWrite1Q, put, rfl⟩
    · change internalAddr tlp = 0 at reset
      rw [RequestView.write, if_pos reset]
      rfl
    · change internalAddr tlp ≠ 0 at notReset
      change internalAddr tlp < io_userspace_offset at config
      rw [RequestView.write, if_neg notReset, if_pos config]
      rfl
    · change internalAddr tlp ≠ 0 at notReset
      change ¬internalAddr tlp < io_userspace_offset at user
      rw [RequestView.write, if_neg notReset, if_neg user]
      simp [PcieCtrl.requests, put]
  rw [view]
  by_cases io : tlpType tlp = type_wr32_io
  · have offer : s.offered .procIOWrite = some (.ioWrite, s.ioWriteCompletion tlp) := by
      simp [offered, first, io]
    rw [if_pos io] at source
    rw [offer]
    exact .ioWrite taken source (completionId_ioWriteCompletion s tlp)
  · have offer : s.offered .procIOWrite = none := by
      simp [offered, first, io]
    rw [if_neg io] at source
    rw [offer]
    exact .posted taken source

open PcieCtrl in
/-- Every event of a device that receives requests only does one of these steps. -/
theorem request_step {e : Event} (only : RequestsOnly s) (receives : ReceivesRequests e)
    (fires : s.step e = some s')
    : RequestStep s.requests s'.requests (s.offered e) (s.requestCall e) := by
  have frame := step_unchanged fires
  cases e
  case recvTLP b =>
    obtain ⟨sof, request⟩ := receives
    obtain ⟨_, passed⟩ := Realign.next_right (r := s.rx.realign) sof
    rcases recvTLP_cases fires with ⟨none, rfl⟩ | ⟨tlp, keep, tlpQ, tlpKeepQ, some, put, _, rfl⟩
    · rw [none] at passed
      cases passed
    · rw [some] at passed
      simp only [Option.map_some, Option.some.injEq] at passed
      subst passed
      have view : ({ s with
            rx.realign := (s.rx.realign.next b).1
            rx.tlpQ := tlpQ
            rx.tlpKeepQ := tlpKeepQ } : PcieCtrl).requests
          = { s.requests with tlpQ := s.requests.tlpQ ++ [b.tlp] } := by
        simp [PcieCtrl.requests, put]
      have call : s.requestCall (.recvTLP b) = .received b.tlp := by
        simp only [requestCall, some]
      rw [view, call]
      exact .receive request
  case procCompletionTLP =>
    have busy := (procCompletionTLP_cases fires).1
    rw [only.idle] at busy
    exact absurd busy (by decide)
  case filterStatReadTLP => exact request_filter only fires
  case procTLP => exact request_proc only fires
  case procIOWrite => exact request_write only fires
  case relayUserReadQ0 =>
    simp only [step, PcieCtrl.relayUserReadQ0, Option.bind_eq_bind, Option.pure_def,
      Fifo.bind_deq_eq_some, Fifo.bind_enq_eq_some, Option.some.injEq] at fires
    obtain ⟨r, q0, taken, q1, _, put, rfl⟩ := fires
    have same : ({ s with io.userReadQ0 := q0, io.userReadQ1 := q1 } : PcieCtrl).requests
        = s.requests := by
      simp [PcieCtrl.requests, taken, put]
    rw [same]
    exact .idle (by simp [offered])
  case relayUserReadQ1 =>
    simp only [step, PcieCtrl.relayUserReadQ1, Option.bind_eq_bind, Option.pure_def,
      Fifo.bind_deq_eq_some, Fifo.bind_enq_eq_some, Option.some.injEq] at fires
    obtain ⟨r, q1, taken, q2, _, put, rfl⟩ := fires
    have same : ({ s with io.userReadQ1 := q1, io.userReadQ2 := q2 } : PcieCtrl).requests
        = s.requests := by
      simp [PcieCtrl.requests, taken, put]
    rw [same]
    exact .idle (by simp [offered])
  case completeIORead =>
    simp only [step, PcieCtrl.completeIORead, Option.bind_eq_bind, Option.pure_def,
      Fifo.bind_deq_eq_some, Bram2.bind_getA_eq_some] at fires
    obtain ⟨ioreq, ioReadQ, taken, v, respA, resp, fires⟩ := fires
    simp only [Option.bind_eq_some_iff, Option.some.injEq] at fires
    obtain ⟨sendTLPm, put, rfl⟩ := fires
    have offer : s.offered .completeIORead = some (.config, s.configCompletion ioreq v) := by
      simp [offered, Fifo.first_eq_some.mpr ⟨_, taken⟩, Fifo.first_eq_some.mpr ⟨_, resp⟩]
    obtain ⟨id, value⟩ := configCompletion_fields s ioreq v
    rw [offer]
    exact .config taken resp id value
  case relayUserWriteQ =>
    simp only [step, PcieCtrl.relayUserWriteQ, Option.bind_eq_bind, Option.pure_def,
      Fifo.bind_deq_eq_some, Fifo.bind_enq_eq_some, Option.some.injEq] at fires
    obtain ⟨w, q1, taken, q, _, put, rfl⟩ := fires
    have same : ({ s with io.userWrite1Q := q1, io.userWriteQ := q } : PcieCtrl).requests
        = s.requests := by
      simp [PcieCtrl.requests, taken, put]
    rw [same]
    exact .idle (by simp [offered])
  case relayUserWrite2Q =>
    simp only [step, PcieCtrl.relayUserWrite2Q, Option.bind_eq_bind, Option.pure_def,
      Fifo.bind_deq_eq_some, Fifo.bind_enq_eq_some, Option.some.injEq] at fires
    obtain ⟨w, q, taken, q2, _, put, rfl⟩ := fires
    have same : ({ s with io.userWriteQ := q, io.userWrite2Q := q2 } : PcieCtrl).requests
        = s.requests := by
      simp [PcieCtrl.requests, taken, put]
    rw [same]
    exact .idle (by simp [offered])
  case dataReceive =>
    simp only [step, PcieCtrl.dataReceive, Option.bind_eq_bind, Option.pure_def,
      Option.map_eq_some_iff, Fifo.bind_deq_eq_some, Option.some.injEq] at fires
    obtain ⟨_, ⟨w, q2, taken, rfl⟩, rfl⟩ := fires
    have call : s.requestCall .dataReceive = .delivered w := by
      simp only [requestCall, Fifo.first_eq_some.mpr ⟨_, taken⟩]
    rw [call]
    exact .dataReceive (by simp [PcieCtrl.requests, taken])
  case dataReq =>
    simp only [step, PcieCtrl.dataReq, Option.bind_eq_bind, Option.pure_def,
      Option.map_eq_some_iff, Fifo.bind_deq_eq_some, Option.some.injEq] at fires
    obtain ⟨_, ⟨r, q2, taken, rfl⟩, rfl⟩ := fires
    have call : s.requestCall .dataReq = .took r := by
      simp only [requestCall, Fifo.first_eq_some.mpr ⟨_, taken⟩]
    rw [call]
    exact .dataReq (by simp [PcieCtrl.requests, taken])
  case dataSend ioreq data =>
    simp only [step, PcieCtrl.dataSend, Option.bind_eq_bind, Option.pure_def,
      Fifo.bind_enq_eq_some, Option.some.injEq] at fires
    obtain ⟨userSendTLPQ, _, put, rfl⟩ := fires
    exact .dataSend (userCompletion_fields s ioreq data).1
  case relayBufIdxRead =>
    have same : s'.requests = s.requests := by
      obtain ⟨_, _, _, _, _, _, ⟨_, _, _, rfl⟩ | ⟨_, _, _, rfl⟩⟩ := relayBufIdxRead_cases fires
        <;> rfl
    rw [same]
    exact .idle (by simp [offered])
  case splitDmaReadReq2 =>
    obtain ⟨_, _, _, _, _, _, _, _, _, _, rfl⟩ := splitDmaReadReq2_cases fires
    exact .idle (by simp [offered])
  case splitDmaWriteReq2 =>
    obtain ⟨_, _, _, _, _, _, _, _, _, _, _, _, rfl⟩ := splitDmaWriteReq2_cases fires
    exact .idle (by simp [offered])
  case generateDmaReadTLP =>
    obtain ⟨req, _, v, _, _, _, taken, looked, _, _, rfl⟩ := generateDmaReadTLP_cases fires
    refine .idle ?_
    rintro source tlp offer
    simp only [offered, Fifo.first_eq_some.mpr ⟨_, taken⟩, Fifo.first_eq_some.mpr ⟨_, looked⟩,
      Option.bind_eq_bind, Option.bind_some, Option.pure_def, Option.some.injEq,
      Prod.mk.injEq] at offer
    rw [← offer.1]
    rfl
  case generateHeaderTLP =>
    obtain ⟨_, req, _, v, _, data, _, _, _, taken, looked, supplied, _, rfl⟩ :=
      generateHeaderTLP_cases fires
    refine .idle ?_
    rintro source tlp offer
    simp only [offered, Fifo.first_eq_some.mpr ⟨_, taken⟩, Fifo.first_eq_some.mpr ⟨_, looked⟩,
      Fifo.first_eq_some.mpr ⟨_, supplied⟩, Option.bind_eq_bind, Option.bind_some,
      Option.pure_def, Option.some.injEq, Prod.mk.injEq] at offer
    rw [← offer.1]
    rfl
  case generateDataTLP =>
    have same : s'.requests = s.requests := by
      rw [PcieCtrl.requests, frame.rx (by decide), frame.io (by decide),
        frame.pages (by decide)]
      rfl
    rw [same]
    refine .idle ?_
    rintro source tlp offer
    simp only [offered] at offer
    split at offer
    next =>
      simp only [Option.bind_eq_bind, Option.bind_eq_some_iff, Option.pure_def,
        Option.some.injEq, Prod.mk.injEq] at offer
      obtain ⟨_, _, rfl, _⟩ := offer
      rfl
    next =>
      cases offer
      rfl
  all_goals
    have same : s'.requests = s.requests := by
      rw [PcieCtrl.requests, frame.rx (by simp [Event.parts]), frame.io (by simp [Event.parts]),
        frame.pages (by simp [Event.parts])]
      rfl
    rw [same]
    exact .idle (by simp [offered])

/-- Every step keeps requests where they may be. -/
theorem RequestView.Placed.step {v v' : RequestView} {offer : Option (TlpSource × SendTLP)}
    {call : RequestCall} (placed : v.Placed) (moves : RequestStep v v' offer call)
    : v'.Placed := by
  obtain ⟨inTlpQ, inTlp2Q, inTlp3Q, paired⟩ := placed
  have written {w : RequestView} (placed : w.Placed) (tlp : BitVec 128) : (w.write tlp).Placed := by
    obtain ⟨inTlpQ, inTlp2Q, inTlp3Q, paired⟩ := placed
    unfold RequestView.write
    split_ifs <;> exact ⟨inTlpQ, inTlp2Q, inTlp3Q, paired⟩
  cases moves with
  | idle _ => exact ⟨inTlpQ, inTlp2Q, inTlp3Q, paired⟩
  | receive request =>
      refine ⟨?_, inTlp2Q, inTlp3Q, paired⟩
      intro tlp member
      rcases List.mem_append.mp member with old | new
      · exact inTlpQ tlp old
      · rw [List.mem_singleton.mp new]
        exact request
  | status head _ _ _ _ =>
      exact ⟨fun tlp member => inTlpQ tlp (by simp [head, member]), inTlp2Q, inTlp3Q, paired⟩
  | @pass tlp rest head source =>
      refine ⟨fun tlp member => inTlpQ tlp (by simp [head, member]), ?_, inTlp3Q, paired⟩
      intro other member
      rcases List.mem_append.mp member with old | new
      · exact inTlp2Q other old
      · rw [List.mem_singleton.mp new]
        exact ⟨inTlpQ tlp (by simp [head]), source⟩
  | configRead head _ =>
      refine ⟨inTlpQ, fun tlp member => inTlp2Q tlp (by simp [head, member]), inTlp3Q, ?_⟩
      simp [paired]
  | userRead head _ =>
      exact ⟨inTlpQ, fun tlp member => inTlp2Q tlp (by simp [head, member]), inTlp3Q, paired⟩
  | write head write =>
      refine ⟨inTlpQ, fun tlp member => inTlp2Q tlp (by simp [head, member]), ?_, paired⟩
      intro tlp member
      rcases List.mem_append.mp member with old | new
      · exact inTlp3Q tlp old
      · rw [List.mem_singleton.mp new]
        exact write
  | config head response _ _ =>
      refine ⟨inTlpQ, inTlp2Q, inTlp3Q, ?_⟩
      rw [head, response] at paired
      simpa using paired
  | @ioWrite tlp rest b head _ _ =>
      refine written (w := { v with tlp3Q := rest }) ⟨inTlpQ, inTlp2Q, ?_, paired⟩ tlp
      exact fun other member => inTlp3Q other (head ▸ List.mem_cons_of_mem tlp member)
  | @posted tlp rest head _ =>
      refine written (w := { v with tlp3Q := rest }) ⟨inTlpQ, inTlp2Q, ?_, paired⟩ tlp
      exact fun other member => inTlp3Q other (head ▸ List.mem_cons_of_mem tlp member)
  | dataReq _ => exact ⟨inTlpQ, inTlp2Q, inTlp3Q, paired⟩
  | dataSend _ => exact ⟨inTlpQ, inTlp2Q, inTlp3Q, paired⟩
  | dataReceive _ => exact ⟨inTlpQ, inTlp2Q, inTlp3Q, paired⟩

open PcieCtrl in
/-- A device that receives requests only keeps its parser between TLPs. -/
theorem RequestsOnly.step {e : Event} (only : RequestsOnly s) (receives : ReceivesRequests e)
    (fires : s.step e = some s')
    : RequestsOnly s' := by
  have placed := only.placed.step (request_step only receives fires)
  have frame := step_unchanged fires
  cases e
  case recvTLP b =>
    obtain ⟨aligned, _⟩ := Realign.next_right (r := s.rx.realign) receives.1
    rcases recvTLP_cases fires with ⟨_, rfl⟩ | ⟨_, _, _, _, _, _, _, rfl⟩
    · exact ⟨aligned, only.idle, placed⟩
    · exact ⟨aligned, only.idle, placed⟩
  case procCompletionTLP =>
    have busy := (procCompletionTLP_cases fires).1
    rw [only.idle] at busy
    exact absurd busy (by decide)
  case filterStatReadTLP =>
    obtain ⟨_, tlp, _, _, _, taken, _, ⟨_, _, _, _, _, rfl⟩ | ⟨_, _, _, _, rfl⟩
      | ⟨_, _, _, completion, _⟩⟩ := filterStatReadTLP_cases fires
    · exact ⟨only.aligned, only.idle, placed⟩
    · exact ⟨only.aligned, only.idle, placed⟩
    · have request := only.placed.inTlpQ tlp (by simp [PcieCtrl.requests, taken])
      exact absurd completion (request_notCompletion request)
  case procTLP =>
    obtain ⟨_, _, _, _, ⟨_, _, _, _, _, _, rfl⟩ | ⟨_, _, _, _, rfl⟩ | ⟨_, _, _, _, rfl⟩
      | ⟨_, _, rfl⟩⟩ := procTLP_cases fires
    all_goals exact ⟨only.aligned, only.idle, placed⟩
  case procIOWrite =>
    obtain ⟨_, _, _, _, _, ⟨_, rfl⟩ | ⟨_, _, rfl⟩ | ⟨_, _, _, _, rfl⟩⟩ :=
      procIOWrite_cases fires
    all_goals exact ⟨only.aligned, only.idle, placed⟩
  all_goals
    have rx := frame.rx (by simp [Event.parts])
    exact ⟨by rw [rx]; exact only.aligned, by rw [rx]; exact only.idle, placed⟩

end Steps

end BluespecPcie

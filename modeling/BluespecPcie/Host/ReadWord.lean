import BluespecPcie.Host.Flight

/-! The read side of bdbmpcie.cpp: `readWord` as a thread over the link, and its history. -/

namespace BluespecPcie

open Bluespec

-----------------------------------------------------------------------------------------
-- The reading thread
-----------------------------------------------------------------------------------------

/-- A load `ummd[(addr>>2)]` on the link. -/
def hostRead (addr : BitVec 32) : RxBeat where
  tlp := packDWs 0#32 (addr >>> 2 <<< 2) 0x0000000f#32 0x00000001#32
  keep := 0x0fff#16
  ruser := singleBeat

/-- The load `ummd[CONFIG_BUFFER_ISIZE-2]` of the emit counter. -/
def remitRead : RxBeat := hostRead 16376#32

/-- Where the host's reading thread is: between calls, loading the emit counter for a refill,
loading it again in the loop, or loading the data, within the budget or after a refill.
-/
inductive ReadCall where
  | idle
  | emit (addr : BitVec 32)
  | spinning (addr iob : BitVec 32)
  | budgeted (addr : BitVec 32)
  | refilled (addr : BitVec 32)
deriving DecidableEq

/-- The read credits of the host. -/
structure ReadCredits where
  io_rreq : BitVec 32
  io_rbudget : BitVec 32
  call : ReadCall
deriving DecidableEq

namespace ReadCredits

/-- `readWord` up to its first load: the data within the budget, or the emit counter. -/
def readWord (h : ReadCredits) (addr : BitVec 32) : ReadCredits × List RxBeat :=
  if h.io_rbudget > 0#32 then
    ({ io_rreq := 0xffff#32 &&& (h.io_rreq + 1#32)
       io_rbudget := h.io_rbudget - 1#32
       call := .budgeted addr }, [hostRead addr])
  else
    ({ h with call := .emit addr }, [remitRead])

/-- The loop condition of `readWord` with the emit counter it loaded: load it again, or refill
the budget and load the data.
-/
def refill (h : ReadCredits) (addr iob io_remit : BitVec 32) : ReadCredits × List RxBeat :=
  if iob ≥ io_remit + io_queue_size then
    ({ h with call := .spinning addr iob }, [remitRead])
  else
    ({ h with io_rbudget := io_remit + io_queue_size - iob, call := .refilled addr },
      [hostRead addr])

/-- `io_rreq`, past the wrap of the emit counter. -/
def wrapped (io_rreq io_remit : BitVec 32) : BitVec 32 :=
  if io_remit > io_rreq then io_rreq + 0x10000#32 else io_rreq

/-- `readWord` with the word it loaded. -/
def loaded (h : ReadCredits) (word : BitVec 32) : ReadCredits × List RxBeat :=
  match h.call with
  | .idle => (h, [])
  | .emit addr =>
      h.refill addr (wrapped h.io_rreq (word &&& 0xffff#32)) (word &&& 0xffff#32)
  | .spinning addr iob => h.refill addr iob (word &&& 0xffff#32)
  | .budgeted _ => ({ h with call := .idle }, [])
  | .refilled _ =>
      ({ h with io_rreq := 0xffff#32 &&& (h.io_rreq + 1#32), call := .idle }, [])

end ReadCredits

/-- The reading thread of bdbmpcie.cpp; a call gives the address it reads. -/
def readThread : HostThread ReadCredits (BitVec 32) where
  waitsFor h := match h.call with
    | .idle => none
    | .emit _ => some remitRead.tlp
    | .spinning _ _ => some remitRead.tlp
    | .budgeted addr => some (hostRead addr).tlp
    | .refilled addr => some (hostRead addr).tlp
  call h addr := match h.call with
    | .idle => some (h.readWord addr)
    | _ => none
  loaded h word := h.loaded word

/-- A load is a request and a read, at the word of its address. -/
theorem hostRead_fields (addr : BitVec 32)
    : RequestBeat (hostRead addr) ∧ isRead (tlpType (hostRead addr).tlp) = true
      ∧ (internalAddr (hostRead addr).tlp).toNat = addr.toNat / 4 * 4 % 2 ^ 20 := by
  obtain ⟨cdw0, -, cdw2, -⟩ := dword_packDWs 0#32 (addr >>> 2 <<< 2) 0x0000000f#32
    0x00000001#32
  have read : isRead (tlpType (hostRead addr).tlp) = true := by
    rw [tlpType_eq, hostRead, cdw0]
    decide
  refine ⟨⟨?_, .inl read⟩, read, ?_⟩
  · simp [hostRead, RxBeat.sof_right, RxBeat.sof_present, singleBeat]
  · rw [internalAddr, requestAddr_eq, hostRead, cdw2]
    simp only [BitVec.truncate, BitVec.toNat_setWidth, toNat_append_add,
      BitVec.extractLsb_toNat, BitVec.toNat_shiftLeft, BitVec.toNat_ushiftRight,
      Nat.shiftRight_eq_div_pow, Nat.shiftLeft_eq, BitVec.toNat_ofNat]
    omega

/-- A load calls for one answer: of the user's logic for the user region, and otherwise of the
device itself.
-/
theorem answerDue_hostRead {addr : BitVec 32} (inside : addr.toNat < bar0_size)
    : ∃ source, answerSource (hostRead addr).tlp = some source
        ∧ (source = .user ↔ config_buffer_size ≤ addr.toNat) := by
  obtain ⟨_, read, index⟩ := hostRead_fields addr
  have inside : addr.toNat < 1048576 := inside
  have word : (internalAddr (hostRead addr).tlp).toNat = addr.toNat / 4 * 4 := by
    rw [index]
    omega
  rw [answerSource_read read]
  by_cases status : isStatusAddr (internalAddr (hostRead addr).tlp) = true
  · rw [if_pos status]
    refine ⟨_, rfl, ⟨fun user => (by cases user), fun above => ?_⟩⟩
    have above : 16384 ≤ addr.toNat := above
    simp only [isStatusAddr, Bool.or_eq_true, beq_iff_eq, io_userspace_offset] at status
    bv_omega
  · rw [if_neg status]
    by_cases config : internalAddr (hostRead addr).tlp < io_userspace_offset
    · rw [if_pos config]
      refine ⟨_, rfl, ⟨fun user => (by cases user), fun above => ?_⟩⟩
      have above : 16384 ≤ addr.toNat := above
      simp only [io_userspace_offset] at config
      bv_omega
    · rw [if_neg config]
      refine ⟨_, rfl, ⟨fun _ => ?_, fun _ => rfl⟩⟩
      change 16384 ≤ addr.toNat
      simp only [io_userspace_offset] at config
      bv_omega

/-- The device answers the load of the emit counter itself, at once. -/
theorem remitRead_fields
    : answerSource remitRead.tlp = some .status
      ∧ internalAddr remitRead.tlp = io_userspace_offset - 8 := by
  decide

/-- The reading thread has one load under way. -/
theorem readThread_sequential : readThread.Sequential := by
  have load {h : ReadCredits} {addr : BitVec 32}
      (waits : readThread.waitsFor h = some (hostRead addr).tlp)
      : (∀ b ∈ [hostRead addr], RequestBeat b)
        ∧ (wireDue [hostRead addr]).Subperm (readThread.awaited h) := by
    refine ⟨by simpa using (hostRead_fields addr).1, ?_⟩
    simpa [wireDue, HostThread.awaited, waits] using List.Subperm.refl _
  have none (h : ReadCredits)
      : (∀ b ∈ ([] : List RxBeat), RequestBeat b)
        ∧ (wireDue []).Subperm (readThread.awaited h) :=
    ⟨by simp, List.nil_subperm⟩
  have refill (h : ReadCredits) (addr iob io_remit : BitVec 32)
      : (∀ b ∈ (h.refill addr iob io_remit).2, RequestBeat b)
        ∧ (wireDue (h.refill addr iob io_remit).2).Subperm
          (readThread.awaited (h.refill addr iob io_remit).1) := by
    unfold ReadCredits.refill
    split
    next => exact load rfl
    next => exact load rfl
  constructor
  case call =>
    intro h addr next called
    cases phase : h.call <;> simp only [readThread, phase, reduceCtorEq] at called
    cases called
    refine ⟨by simp [readThread, phase], ?_⟩
    unfold ReadCredits.readWord
    split
    next => exact load rfl
    next => exact load rfl
  case loaded =>
    intro h request word waits
    cases phase : h.call <;> simp only [readThread, phase, reduceCtorEq] at waits
    all_goals simp only [readThread, ReadCredits.loaded, phase]
    · exact refill _ _ _ _
    · exact refill _ _ _ _
    · exact none _
    · exact none _

-----------------------------------------------------------------------------------------
-- History
-----------------------------------------------------------------------------------------

/-- Data loads of the configuration region and of the user region, and each refill: the former
before it, and the budget it computed, or none where it entered the loop.
-/
structure ReadLog where
  configReads : Nat
  userReads : Nat
  refills : List (Nat × Option (BitVec 32))

/-- A data load at an address. -/
def ReadLog.issue (log : ReadLog) (addr : BitVec 32) : ReadLog :=
  if addr.toNat < config_buffer_size then { log with configReads := log.configReads + 1 }
  else { log with userReads := log.userReads + 1 }

/-- The history after a move of the host. -/
def ReadLog.move (log : ReadLog) (h h' : ReadCredits) : ReadLog :=
  match h.call, h'.call with
  | .idle, .budgeted addr => log.issue addr
  | .emit _, .refilled addr =>
      { log with refills := log.refills ++ [(log.configReads, some h'.io_rbudget)] }.issue addr
  | .emit _, .spinning _ _ =>
      { log with refills := log.refills ++ [(log.configReads, none)] }
  | .spinning _ _, .refilled addr => log.issue addr
  | _, _ => log

/-- How an event extends the history. -/
def ReadLog.recordLink (s : Linked ReadCredits) (e : LinkEvent (BitVec 32)) (log : ReadLog)
    : ReadLog :=
  match readThread.step s e with
  | some s' => log.move s.host s'.host
  | none => log

/-- The reading thread and the device, with both histories. -/
def readStep : Linked ReadCredits × (AnswerLog × ReadLog) → LinkEvent (BitVec 32) →
    Option (Linked ReadCredits × (AnswerLog × ReadLog)) :=
  traced readThread.step (fun s e log => (log.1.recordLink s e, log.2.recordLink s e))

/-- Reads stay inside BAR0, and the user answers only what it took. -/
def ReadsBar (state : Linked ReadCredits × (AnswerLog × ReadLog)) (e : LinkEvent (BitVec 32))
    : Prop :=
  e.Answers state.2.1.hand
  ∧ match e with
    | .call addr => addr.toNat < bar0_size
    | _ => True

instance (state : Linked ReadCredits × (AnswerLog × ReadLog)) (e : LinkEvent (BitVec 32))
    : Decidable (ReadsBar state e) := by
  cases e <;> unfold ReadsBar <;> infer_instance

/-- After `Init_Pcie`: the counters of host and device are zero. -/
def readReset (p : PowerUp) : Linked ReadCredits × (AnswerLog × ReadLog) :=
  (⟨{ io_rreq := 0, io_rbudget := 0, call := .idle }, [], [], mkPcieCtrl p⟩, .start,
    { configReads := 0, userReads := 0, refills := [] })

-----------------------------------------------------------------------------------------
-- What the device counts
-----------------------------------------------------------------------------------------

/-- The answer is due from the user's logic. -/
def isUserDue (due : TlpSource × BitVec 32) : Bool := decide (due.1 = .user)

/-- Without writes, the count of reads taken grows by each the user takes, and answers of the
user's logic are given by the user.
-/
theorem RequestStep.emits {v v' : RequestView} {offer : Option (TlpSource × SendTLP)}
    {call : RequestCall} (moves : RequestStep v v' offer call) (noWrites : v.tlp3Q = [])
    : v'.userReadEmit = v.userReadEmit + BitVec.ofNat 32 call.takes.length
      ∧ ((answersIn offer.toList).map answerGiven).countP isUserDue = call.answers.length := by
  have kept : v.userReadEmit = v.userReadEmit + BitVec.ofNat 32 0 := (BitVec.add_zero _).symm
  cases moves with
  | @idle offer dma =>
      refine ⟨kept, ?_⟩
      cases offer with
      | none => rfl
      | some entry =>
          obtain ⟨source, b⟩ := entry
          simp [answersIn, dma source b rfl, RequestCall.answers]
  | receive _ => exact ⟨kept, rfl⟩
  | status _ _ _ _ _ => exact ⟨kept, rfl⟩
  | pass _ _ => exact ⟨kept, rfl⟩
  | configRead _ _ => exact ⟨kept, rfl⟩
  | userRead _ _ => exact ⟨kept, rfl⟩
  | write _ _ => exact ⟨kept, rfl⟩
  | config _ _ _ _ => exact ⟨kept, rfl⟩
  | ioWrite head _ _ =>
      rw [noWrites] at head
      cases head
  | posted head _ =>
      rw [noWrites] at head
      cases head
  | dataReq _ => exact ⟨rfl, rfl⟩
  | dataSend _ => exact ⟨kept, rfl⟩
  | dataReceive _ => exact ⟨kept, rfl⟩

/-- Without writes, reads of the user region not taken yet and the count of those taken only
grow by the requests accepted.
-/
theorem RequestStep.userDue {v v' : RequestView} {offer : Option (TlpSource × SendTLP)}
    {call : RequestCall} (moves : RequestStep v v' offer call) (noWrites : v.tlp3Q = [])
    : v'.userReadEmit + BitVec.ofNat 32 (v'.due.countP isUserDue)
      = v.userReadEmit
        + BitVec.ofNat 32 ((call.accepts.flatMap answerDue ++ v.due).countP isUserDue) := by
  obtain ⟨emit, given⟩ := moves.emits noWrites
  have counts := moves.due.countP_eq isUserDue
  have all (reads : List IOReadReq)
      : (reads.map userAnswerDue).countP isUserDue = reads.length := by
    rw [List.countP_eq_length.mpr (by simp [userAnswerDue, isUserDue]), List.length_map]
  simp only [List.countP_append, all, given] at counts ⊢
  have sum : (call.accepts.flatMap answerDue).countP isUserDue + v.due.countP isUserDue
      = call.takes.length + v'.due.countP isUserDue := by
    omega
  rw [emit, sum, BitVec.ofNat_add, BitVec.add_assoc]

/-- No step adds to what is in flight. -/
theorem FlightStep.subset {flight flight' : List (BitVec 128)} {queued queued' : Nat}
    {emit emit' : BitVec 32} (moves : FlightStep flight queued emit flight' queued' emit')
    : flight' ⊆ flight := by
  cases moves with
  | same => exact List.Subset.refl _
  | answered split _ =>
      rw [split]
      exact (List.Sublist.append_left (List.sublist_cons_self _ _) _).subset
  | reset head _ => exact head ▸ List.subset_cons_self _ _
  | config head _ => exact head ▸ List.subset_cons_self _ _
  | user head _ => exact head ▸ List.subset_cons_self _ _
  | deliver _ => exact List.Subset.refl _

end BluespecPcie

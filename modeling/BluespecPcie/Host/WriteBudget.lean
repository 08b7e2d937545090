import BluespecPcie.Host.Flight
import BluespecPcie.Host.WriteCredits

/-! How many user writes the host leaves undelivered: the budget of `writeWord`, its refills,
and the emit counter they load.
-/

namespace BluespecPcie

open Bluespec

-----------------------------------------------------------------------------------------
-- The writing thread
-----------------------------------------------------------------------------------------

/-- What a program calls to write. -/
inductive WriteRequest where
  | initPcie
  | userWriteWord (addr data : BitVec 32)
deriving DecidableEq

/-- The writing thread of bdbmpcie.cpp. -/
def writeThread : HostThread BdbmPcie WriteRequest where
  waitsFor h := match h.call with
    | .waiting _ _ => some emitRead.tlp
    | _ => none
  call h
    | .initPcie => match h.call with
        | .waiting _ _ => none
        | _ => some h.init_pcie
    | .userWriteWord addr data => match h.call with
        | .idle => some (h.writeWord (addr + BitVec.ofNat 32 config_buffer_size) data)
        | _ => none
  loaded h io_wemit := match h.call with
    | .waiting addr data => h.loaded addr data io_wemit
    | _ => (h, [])

/-- A store is a request, and no answer is due to it. -/
theorem hostWrite_request (addr data : BitVec 32)
    : RequestBeat (hostWrite addr data) ∧ answerDue (hostWrite addr data).tlp = [] := by
  have write := isWrite_hostWrite addr data
  refine ⟨⟨?_, .inr write⟩, ?_⟩
  · simp [hostWrite, RxBeat.sof_right, RxBeat.sof_present, singleBeat]
  · rw [answerDue, answerSource_write write, (hostWrite_fields addr data).1]
    rfl

/-- The load of the emit counter is a request. -/
theorem emitRead_request : RequestBeat emitRead := by decide

/-- The writing thread has one load under way. -/
theorem writeThread_sequential : writeThread.Sequential := by
  have store (h : BdbmPcie) (addr data : BitVec 32)
      : (∀ b ∈ [hostWrite addr data], RequestBeat b)
        ∧ (wireDue [hostWrite addr data]).Subperm (writeThread.awaited h) := by
    obtain ⟨request, none⟩ := hostWrite_request addr data
    refine ⟨by simpa using request, ?_⟩
    simp [wireDue, none]
  have load {h : BdbmPcie} {addr data : BitVec 32} (waiting : h.call = .waiting addr data)
      : (∀ b ∈ [emitRead], RequestBeat b)
        ∧ (wireDue [emitRead]).Subperm (writeThread.awaited h) := by
    refine ⟨by simpa using emitRead_request, ?_⟩
    simpa [wireDue, HostThread.awaited, writeThread, waiting] using List.Subperm.refl _
  constructor
  case call =>
    rintro h (_ | ⟨addr, data⟩) next called
    all_goals
      cases phase : h.call <;> simp only [writeThread, phase, reduceCtorEq] at called
      all_goals cases called
    · exact ⟨by simp [writeThread, phase], store _ _ _⟩
    · exact ⟨by simp [writeThread, phase], store _ _ _⟩
    · refine ⟨by simp [writeThread, phase], ?_⟩
      unfold BdbmPcie.writeWord
      split
      next => exact store _ _ _
      next => exact load rfl
  case loaded =>
    intro h request x waits
    cases phase : h.call <;> simp only [writeThread, phase, reduceCtorEq] at waits
    next addr data =>
      simp only [writeThread, phase, BdbmPcie.loaded]
      split
      next => exact load phase
      next => exact store _ _ _

/-- The user writes an event delivers. -/
def LinkEvent.delivers : LinkEvent WriteRequest → Nat
  | .device .dataReceive => 1
  | _ => 0

/-- The user-region writes issued with an event, and those delivered. -/
def CreditLog.recordLink (s : Linked BdbmPcie) (e : LinkEvent WriteRequest) (log : CreditLog)
    : CreditLog where
  issued := log.issued + userWrites (writeThread.sends s e)
  delivered := log.delivered + e.delivers

/-- The writing thread and the device, with both histories. -/
def writeStep : Linked BdbmPcie × (AnswerLog × CreditLog) → LinkEvent WriteRequest →
    Option (Linked BdbmPcie × (AnswerLog × CreditLog)) :=
  traced writeThread.step (fun s e log => (log.1.recordLink s e, log.2.recordLink s e))

/-- Writes stay inside BAR0, `Init_Pcie` finds every write delivered, and the user answers only
what it took.
-/
def WritesUser (state : Linked BdbmPcie × (AnswerLog × CreditLog))
    (e : LinkEvent WriteRequest) : Prop :=
  e.Answers state.2.1.hand
  ∧ match e with
    | .call .initPcie => state.2.2.issued = state.2.2.delivered
    | .call (.userWriteWord addr _) => addr.toNat + config_buffer_size < bar0_size
    | _ => True

instance (state : Linked BdbmPcie × (AnswerLog × CreditLog)) (e : LinkEvent WriteRequest)
    : Decidable (WritesUser state e) := by
  rcases e with (_ | _) | _ | _ <;> unfold WritesUser <;> infer_instance

/-- Host, link and device as `CreditInv` sees them. -/
def Linked.system (s : Linked BdbmPcie) : HostSystem := ⟨s.host, s.wire, s.device⟩

-----------------------------------------------------------------------------------------
-- Resets under way
-----------------------------------------------------------------------------------------

/-- No user write is ahead of a reset under way, and none is queued then. -/
structure ResetsFirst (flight : List (BitVec 128)) (queued : Nat) : Prop where
  ahead : flight.Pairwise (fun tlp later => isReset later = true → isUserWrite tlp = false)
  drained : flight.any isReset = true → queued = 0

/-- A reset is no user write. -/
theorem isReset_excludes {tlp : BitVec 128} (reset : isReset tlp = true)
    : isUserWrite tlp = false := by
  simp only [isReset, Bool.and_eq_true, beq_iff_eq] at reset
  simp [isUserWrite, reset.2, io_userspace_offset]

section Flight

variable {flight flight' : List (BitVec 128)} {queued queued' : Nat} {emit emit' : BitVec 32}

/-- Every step keeps resets first; while one is under way, the count stays or is reset. -/
theorem ResetsFirst.step (resets : ResetsFirst flight queued)
    (moves : FlightStep flight queued emit flight' queued' emit')
    : ResetsFirst flight' queued'
      ∧ (flight'.any isReset = true →
          flight.any isReset = true ∧ (emit' = emit ∨ emit' = 0)) := by
  obtain ⟨ahead, drained⟩ := resets
  have rest {tlp : BitVec 128} {rest : List (BitVec 128)} (head : flight = tlp :: rest)
      (pending : rest.any isReset = true) : flight.any isReset = true := by
    rw [head, List.any_cons, pending, Bool.or_true]
  cases moves with
  | same => exact ⟨⟨ahead, drained⟩, fun pending => ⟨pending, .inl rfl⟩⟩
  | @answered before after tlp split _ =>
      have fewer : (before ++ after).Sublist flight := by
        rw [split]
        exact List.Sublist.append_left (List.sublist_cons_self tlp after) before
      have still (pending : (before ++ after).any isReset = true)
          : flight.any isReset = true := by
        obtain ⟨reset, member, isReset⟩ := List.any_eq_true.mp pending
        exact List.any_eq_true.mpr ⟨reset, fewer.subset member, isReset⟩
      exact ⟨⟨ahead.sublist fewer, fun pending => drained (still pending)⟩,
        fun pending => ⟨still pending, .inl rfl⟩⟩
  | reset head _ =>
      refine ⟨⟨?_, fun pending => drained (rest head pending)⟩,
        fun pending => ⟨rest head pending, .inr rfl⟩⟩
      exact (List.pairwise_cons.mp (head ▸ ahead)).2
  | config head _ =>
      refine ⟨⟨?_, fun pending => drained (rest head pending)⟩,
        fun pending => ⟨rest head pending, .inl rfl⟩⟩
      exact (List.pairwise_cons.mp (head ▸ ahead)).2
  | user head user =>
      obtain ⟨first, later⟩ := List.pairwise_cons.mp (head ▸ ahead)
      have none : ¬flight'.any isReset = true := by
        intro pending
        obtain ⟨reset, member, isReset⟩ := List.any_eq_true.mp pending
        rw [first reset member isReset] at user
        cases user
      exact ⟨⟨later, fun pending => absurd pending none⟩, fun pending => absurd pending none⟩
  | deliver queue =>
      have none : ¬flight.any isReset = true := by
        intro pending
        have empty := drained pending
        omega
      exact ⟨⟨ahead, fun pending => absurd pending none⟩, fun pending => absurd pending none⟩

/-- A TLP that is no reset may follow. -/
theorem ResetsFirst.append (resets : ResetsFirst flight queued) {tlp : BitVec 128}
    (noReset : isReset tlp = false)
    : ResetsFirst (flight ++ [tlp]) queued
      ∧ (flight ++ [tlp]).any isReset = flight.any isReset := by
  have same : (flight ++ [tlp]).any isReset = flight.any isReset := by
    simp [noReset]
  refine ⟨⟨?_, by rw [same]; exact resets.drained⟩, same⟩
  refine List.pairwise_append.mpr ⟨resets.ahead, List.pairwise_singleton _ _, ?_⟩
  intro earlier _ later member reset
  rw [List.mem_singleton.mp member, noReset] at reset
  cases reset

/-- A reset may follow when no user write is under way. -/
theorem ResetsFirst.append_reset (resets : ResetsFirst flight queued) (tlp : BitVec 128)
    (none : flight.countP isUserWrite = 0) (drained : queued = 0)
    : ResetsFirst (flight ++ [tlp]) queued := by
  refine ⟨List.pairwise_append.mpr ⟨resets.ahead, List.pairwise_singleton _ _, ?_⟩,
    fun _ => drained⟩
  intro earlier member later _ _
  have notUser := List.countP_eq_zero.mp none earlier member
  simpa using notUser

/-- While a reset is under way, the credits in flight are the user writes in flight; induction
on the TLPs.
-/
theorem ResetsFirst.credits (resets : ResetsFirst flight queued)
    (pending : flight.any isReset = true) (c : BitVec 32)
    : flight.foldl credit c = BitVec.ofNat 32 (flight.countP isUserWrite) := by
  have ahead := resets.ahead
  clear resets
  induction flight generalizing c with
  | nil => cases pending
  | cons tlp rest ih =>
      obtain ⟨first, later⟩ := List.pairwise_cons.mp ahead
      rw [List.foldl_cons]
      by_cases more : rest.any isReset = true
      · obtain ⟨reset, member, isReset⟩ := List.any_eq_true.mp more
        have notUser := first reset member isReset
        rw [ih more _ later, List.countP_cons_of_neg (by simp [notUser])]
      · have reset : isReset tlp = true := by simpa [more] using pending
        have none : rest.any isReset = false := by simpa using more
        rw [credit, if_pos reset, foldl_credit _ _ none,
          List.countP_cons_of_neg (by simp [isReset_excludes reset])]
        exact BitVec.zero_add _

end Flight

-----------------------------------------------------------------------------------------
-- The budget
-----------------------------------------------------------------------------------------

/-- A value of the emit counter from which the host computes no more credit than the writes
undelivered leave; behind a reset under way it is the device's, unless that is reset.
-/
structure EmitCurrent (s : Linked BdbmPcie) (log : CreditLog) (io_wemit : BitVec 32)
    : Prop where
  undelivered : log.issued ≤ log.delivered + (s.host.io_wreq - io_wemit).toNat
  pending : s.system.resetPending = true →
    io_wemit = s.device.io.userWriteEmit ∨ s.device.io.userWriteEmit = 0

/-- The writes undelivered and the budget never exceed the queue size by more than one. While
a reset is under way, the counter still in the device is one that a refill was checked against.
-/
structure WriteBudget (s : Linked BdbmPcie) (log : CreditLog)
    (unsent : List (TlpSource × SendTLP)) : Prop where
  credit : CreditInv s.system log
  resets : ResetsFirst s.system.inFlight s.device.queuedWrites
  closed : s.host.call = .closed → log.issued = log.delivered ∧ s.system.resetPending = false
  bounded : s.host.call ≠ .closed →
    log.issued + s.host.io_wbudget.toNat ≤ log.delivered + 513
  stale : s.system.resetPending = true →
    (log.issued = log.delivered ∧ s.host.io_wbudget = 0)
      ∨ (0 - s.device.io.userWriteEmit).toNat < 256
  current : ∀ entry ∈ unsent, EmitCurrent s log (completionData entry.2)

section Steps

variable {s s' : Linked BdbmPcie} {log log' : CreditLog}
  {unsent : List (TlpSource × SendTLP)}

/-- The host's counters, by the writes undelivered: exactly these while a reset is under way,
and with the emit counter otherwise.
-/
theorem WriteBudget.counters (inv : WriteBudget s log unsent)
    (opened : s.host.call ≠ .closed)
    : log.delivered ≤ log.issued
      ∧ s.host.io_wreq - s.host.io_wbudget
        = (if s.system.resetPending then 0 else s.device.io.userWriteEmit)
          + BitVec.ofNat 32 (log.issued - log.delivered) := by
  have credits := inv.credit.credits opened
  have undelivered := inv.credit.undelivered
  have counts : log.issued - log.delivered
      = s.device.queuedWrites + s.system.inFlight.countP isUserWrite := by
    have conserved : log.issued
      = log.delivered + s.system.inFlight.countP isUserWrite + s.device.queuedWrites :=
      undelivered
    omega
  refine ⟨by omega, ?_⟩
  rw [counts]
  by_cases pending : s.system.resetPending = true
  · rw [if_pos pending, inv.resets.drained pending]
    rw [inv.resets.credits pending] at credits
    rw [Nat.zero_add]
    exact credits.symm.trans (BitVec.zero_add _).symm
  · rw [if_neg pending]
    rw [foldl_credit _ _ (by simpa [HostSystem.resetPending] using pending)] at credits
    rw [BitVec.ofNat_add, ← BitVec.add_assoc]
    exact credits.symm

/-- While the host waits, the counter as it is in the device is current. -/
theorem EmitCurrent.now (inv : WriteBudget s log unsent) {addr data : BitVec 32}
    (waiting : s.host.call = .waiting addr data)
    : EmitCurrent s log s.device.io.userWriteEmit := by
  have opened : s.host.call ≠ .closed := by simp [waiting]
  obtain ⟨ordered, counters⟩ := inv.counters opened
  have empty : s.host.io_wbudget = 0#32 := (inv.credit.waiting addr data waiting).2
  have bounded := inv.bounded opened
  rw [empty, BitVec.sub_zero] at counters
  refine ⟨?_, fun _ => .inl rfl⟩
  by_cases pending : s.system.resetPending = true
  · rw [if_pos pending] at counters
    rcases inv.stale pending with ⟨drained, _⟩ | checked
    · omega
    · have total := congrArg BitVec.toNat counters
      simp only [BitVec.toNat_add, BitVec.toNat_ofNat, BitVec.toNat_sub] at total checked ⊢
      omega
  · rw [if_neg pending] at counters
    have difference : s.host.io_wreq - s.device.io.userWriteEmit
        = BitVec.ofNat 32 (log.issued - log.delivered) := by
      rw [counters, BitVec.add_comm, BitVec.add_sub_cancel]
    rw [difference, BitVec.toNat_ofNat, Nat.mod_eq_of_lt (by omega)]
    omega

/-- A value that is current stays so while the device acts. -/
theorem EmitCurrent.moved {io_wemit : BitVec 32} (current : EmitCurrent s log io_wemit)
    (host : s'.host = s.host) (issued : log'.issued = log.issued)
    (delivered : log.delivered ≤ log'.delivered)
    (pending : s'.system.resetPending = true → s.system.resetPending = true
      ∧ (s'.device.io.userWriteEmit = s.device.io.userWriteEmit
        ∨ s'.device.io.userWriteEmit = 0))
    : EmitCurrent s' log' io_wemit := by
  obtain ⟨undelivered, before⟩ := current
  refine ⟨?_, ?_⟩
  · rw [host, issued]
    omega
  · intro now
    obtain ⟨earlier, same | reset⟩ := pending now
    · rw [same]
      exact before earlier
    · exact .inr reset

/-- An event of the device, by what it does to the TLPs in flight. -/
theorem WriteBudget.device (inv : WriteBudget s log unsent)
    {given : List (TlpSource × SendTLP)} (host : s'.host = s.host)
    (credit : CreditInv s'.system log')
    (moves : FlightStep s.system.inFlight s.device.queuedWrites s.device.io.userWriteEmit
      s'.system.inFlight s'.device.queuedWrites s'.device.io.userWriteEmit)
    (issued : log'.issued = log.issued) (delivered : log.delivered ≤ log'.delivered)
    (gives : ∀ entry ∈ given, EmitCurrent s log (completionData entry.2))
    : WriteBudget s' log' (unsent ++ given) := by
  obtain ⟨resets, pending⟩ := inv.resets.step moves
  refine ⟨credit, resets, ?_, ?_, ?_, ?_⟩
  · rw [host, issued]
    intro closed
    obtain ⟨drained, noReset⟩ := inv.closed closed
    have conserved : log'.issued = log'.delivered
      + s'.system.inFlight.countP isUserWrite + s'.system.device.queuedWrites :=
      credit.undelivered
    refine ⟨by omega, ?_⟩
    cases now : s'.system.resetPending with
    | false => rfl
    | true =>
        have earlier : s.system.resetPending = true := (pending now).1
        rw [noReset] at earlier
        cases earlier
  · rw [host, issued]
    intro opened
    have bounded := inv.bounded opened
    omega
  · intro now
    obtain ⟨earlier, emit⟩ := pending now
    rw [host, issued]
    rcases inv.stale earlier with ⟨drained, empty⟩ | checked
    · have conserved : log'.issued = log'.delivered
        + s'.system.inFlight.countP isUserWrite + s'.system.device.queuedWrites :=
        credit.undelivered
      exact .inl ⟨by omega, empty⟩
    · rcases emit with same | reset
      · rw [same]
        exact .inr checked
      · rw [reset]
        exact .inr (by decide)
  · intro entry member
    rcases List.mem_append.mp member with old | new
    · exact (inv.current entry old).moved host issued delivered pending
    · exact (gives entry new).moved host issued delivered pending

/-- TLPs in flight behind those the host sends. -/
theorem Linked.inFlight_sends (s : Linked BdbmPcie) (host : BdbmPcie) (b : RxBeat)
    : ({ s with host, wire := s.wire ++ [b] } : Linked BdbmPcie).system.inFlight
      = s.system.inFlight ++ [b.tlp] := by
  simp [Linked.system, HostSystem.inFlight]

/-- The load of the emit counter, and the reset, are no user writes. -/
theorem userWrites_other
    : userWrites [emitRead] = 0 ∧ userWrites [hostWrite 0#32 0#32] = 0 := by
  decide

/-- `Init_Pcie` with every write delivered. -/
theorem WriteBudget.init_pcie (inv : WriteBudget s log unsent)
    (drained : log.issued = log.delivered)
    : WriteBudget { s with
          host := s.host.init_pcie.1, wire := s.wire ++ s.host.init_pcie.2 }
        { log with issued := log.issued + userWrites s.host.init_pcie.2 } [] := by
  have conserved : log.issued = log.delivered
    + s.system.inFlight.countP isUserWrite + s.device.queuedWrites := inv.credit.undelivered
  have none : userWrites s.host.init_pcie.2 = 0 := userWrites_other.2
  refine ⟨inv.credit.init_pcie, ?_, ?_, ?_, ?_, by simp⟩
  · have inFlight := s.inFlight_sends s.host.init_pcie.1 (hostWrite 0#32 0#32)
    change ResetsFirst (Linked.system { s with
      host := s.host.init_pcie.1, wire := s.wire ++ [hostWrite 0#32 0#32] }).inFlight _
    rw [inFlight]
    exact inv.resets.append_reset _ (by omega) (by omega)
  · intro closed
    cases closed
  · intro _
    rw [none, drained]
    simp [BdbmPcie.init_pcie]
  · intro _
    rw [none]
    exact .inl ⟨drained, rfl⟩

/-- A TLP the host sends that is no reset: the invariant for the counters it then has. -/
theorem WriteBudget.sends (inv : WriteBudget s log unsent) {host : BdbmPcie} {b : RxBeat}
    (noReset : isReset b.tlp = false)
    (credit : CreditInv (s.system.sends (host, [b]))
      { log with issued := log.issued + userWrites [b] })
    (opened : host.call ≠ .closed)
    (bounded : log.issued + userWrites [b] + host.io_wbudget.toNat ≤ log.delivered + 513)
    (stale : s.system.resetPending = true →
      (log.issued + userWrites [b] = log.delivered ∧ host.io_wbudget = 0)
        ∨ (0 - s.device.io.userWriteEmit).toNat < 256)
    : WriteBudget { s with host, wire := s.wire ++ [b] }
        { log with issued := log.issued + userWrites [b] } [] := by
  obtain ⟨resets, same⟩ := inv.resets.append noReset
  have inFlight := s.inFlight_sends host b
  have pending : (Linked.system { s with host, wire := s.wire ++ [b] }).resetPending
      = s.system.resetPending := by
    rw [HostSystem.resetPending, inFlight, same]
    rfl
  refine ⟨credit, ?_, fun closed => absurd closed opened, fun _ => bounded, ?_, by simp⟩
  · rw [inFlight]
    exact resets
  · rw [pending]
    exact stale

/-- The load of the emit counter moves no credit and no reset. -/
theorem WriteBudget.load (inv : WriteBudget s log unsent) {host : BdbmPcie}
    (credit : CreditInv (s.system.sends (host, [emitRead]))
      { log with issued := log.issued + userWrites [emitRead] })
    (was : s.host.call ≠ .closed) (opened : host.call ≠ .closed)
    (same : host.io_wbudget = s.host.io_wbudget)
    : WriteBudget { s with host, wire := s.wire ++ [emitRead] }
        { log with issued := log.issued + userWrites [emitRead] } [] := by
  have none := userWrites_other.1
  refine inv.sends (by decide) credit opened ?_ ?_
  · rw [none, same]
    exact inv.bounded was
  · rw [none, same]
    exact inv.stale

/-- A store to the user region is one user write. -/
theorem userWrites_hostWrite {addr : BitVec 32} (data : BitVec 32)
    (user : config_buffer_size ≤ addr.toNat) (inside : addr.toNat < bar0_size)
    : userWrites [hostWrite addr data] = 1 := by
  simp [userWrites, (hostWrite_user user inside).1]

/-- A call of `writeWord` spends one unit of the budget, or asks for the emit counter. -/
theorem WriteBudget.writeWord (inv : WriteBudget s log unsent) (idle : s.host.call = .idle)
    {addr data : BitVec 32} (user : config_buffer_size ≤ addr.toNat)
    (inside : addr.toNat < bar0_size)
    : WriteBudget { s with
          host := (s.host.writeWord addr data).1
          wire := s.wire ++ (s.host.writeWord addr data).2 }
        { log with issued := log.issued + userWrites (s.host.writeWord addr data).2 } [] := by
  have was : s.host.call ≠ .closed := by simp [idle]
  have bounded := inv.bounded was
  have credit : CreditInv (s.system.sends (s.host.writeWord addr data))
      { log with issued := log.issued + userWrites (s.host.writeWord addr data).2 } :=
    inv.credit.writeWord idle user inside
  by_cases budget : s.host.io_wbudget > 0#32
  · have spends : s.host.writeWord addr data
        = ({ s.host with io_wbudget := s.host.io_wbudget - 1#32 }, [hostWrite addr data]) :=
      if_pos budget
    have one := userWrites_hostWrite data user inside
    rw [spends] at credit ⊢
    refine inv.sends (hostWrite_user user inside).2 credit was ?_ ?_
    · rw [one]
      simp only
      bv_omega
    · intro pending
      rcases inv.stale pending with ⟨_, empty⟩ | checked
      · rw [empty] at budget
        exact absurd budget (by decide)
      · exact .inr checked
  · have asks : s.host.writeWord addr data
        = ({ s.host with call := .waiting addr data }, [emitRead]) :=
      if_neg budget
    rw [asks] at credit ⊢
    exact inv.load credit was (by simp) rfl

/-- With a current value of the emit counter, the budget after a refill and the writes
undelivered exceed the queue size by one at most.
-/
theorem WriteBudget.loaded (inv : WriteBudget s log unsent) {addr data io_wemit : BitVec 32}
    (waiting : s.host.call = .waiting addr data) (current : EmitCurrent s log io_wemit)
    : WriteBudget { s with
          host := (s.host.loaded addr data io_wemit).1
          wire := s.wire ++ (s.host.loaded addr data io_wemit).2 }
        { log with
          issued := log.issued + userWrites (s.host.loaded addr data io_wemit).2 } [] := by
  have was : s.host.call ≠ .closed := by simp [waiting]
  obtain ⟨⟨user, inside⟩, empty⟩ := inv.credit.waiting addr data waiting
  have empty : s.host.io_wbudget = 0#32 := empty
  have credit : CreditInv (s.system.sends (s.host.loaded addr data io_wemit))
      { log with
        issued := log.issued + userWrites (s.host.loaded addr data io_wemit).2 } :=
    inv.credit.loaded waiting io_wemit
  by_cases full : s.host.io_wreq - io_wemit ≥ io_queue_size / 2#32
  · have again : s.host.loaded addr data io_wemit = (s.host, [emitRead]) := if_pos full
    rw [again] at credit ⊢
    exact inv.load credit was was rfl
  · have refills : s.host.loaded addr data io_wemit
        = ({ io_wbudget := io_queue_size - (s.host.io_wreq - io_wemit)
             io_wreq := s.host.io_wreq
               + (io_queue_size - (s.host.io_wreq - io_wemit) + 1#32)
             call := .idle }, [hostWrite addr data]) :=
      if_neg full
    have room : (s.host.io_wreq - io_wemit).toNat < 256 := by
      have half : io_queue_size / 2#32 = 256#32 := by decide
      rw [half] at full
      bv_omega
    have one := userWrites_hostWrite data user inside
    have undelivered := current.undelivered
    rw [refills] at credit ⊢
    refine inv.sends (hostWrite_user user inside).2 credit (by simp) ?_ ?_
    · rw [one, BitVec.toNat_sub_of_le (BitVec.le_def.mpr ?_)]
      · change log.issued + 1 + (512 - (s.host.io_wreq - io_wemit).toNat) ≤ log.delivered + 513
        omega
      · change (s.host.io_wreq - io_wemit).toNat ≤ 512
        omega
    · intro pending
      rcases inv.stale pending with ⟨drained, _⟩ | checked
      · -- nothing was issued since the reset, so the check compared 0 with the counter
        obtain ⟨_, counters⟩ := inv.counters was
        rw [if_pos pending, drained, Nat.sub_self, empty, BitVec.sub_zero,
          BitVec.add_zero] at counters
        rw [counters] at room
        rcases current.pending pending with same | reset
        · rw [← same]
          exact .inr room
        · rw [reset]
          exact .inr (by decide)
      · exact .inr checked

/-- An event of the device does one of the steps on what is in flight. -/
theorem flight_step {e : Event} {device : PcieCtrl} (wire : List RxBeat)
    (only : RequestsOnly s.device) (receives : ReceivesRequests e)
    (fired : s.device.step e = some device) (front : List SendTLP)
    (wires : s.wire.map RxBeat.tlp
      = (s.device.requestCall e).accepts ++ wire.map RxBeat.tlp)
    : FlightStep s.system.inFlight s.device.queuedWrites s.device.io.userWriteEmit
        (Linked.system { s with wire, device, front }).inFlight device.queuedWrites
        device.io.userWriteEmit := by
  have moved := (request_step only receives fired).flight only.placed (wire.map RxBeat.tlp)
  rw [← wires] at moved
  rw [PcieCtrl.queuedWrites_eq, PcieCtrl.queuedWrites_eq]
  exact moved

end Steps

-----------------------------------------------------------------------------------------
-- Runs
-----------------------------------------------------------------------------------------

/-- One load under way, and the budget behind it. -/
structure WriteLink (p : PowerUp) (s : Linked BdbmPcie) (log : AnswerLog × CreditLog)
    (sent unsent : List (TlpSource × SendTLP)) : Prop where
  one : OneLoad writeThread p s log.1 sent unsent
  budget : WriteBudget s log.2 unsent

/-- Before `Init_Pcie`, with arbitrary counters of the host. -/
def writeReset (p : PowerUp) (io_wreq io_wbudget : BitVec 32)
    : Linked BdbmPcie × (AnswerLog × CreditLog) :=
  (⟨{ io_wreq, io_wbudget, call := .closed }, [], [], mkPcieCtrl p⟩,
    .start, { issued := 0, delivered := 0 })

section Runs

variable {p : PowerUp} {s s' : Linked BdbmPcie} {log : AnswerLog × CreditLog}
  {sent unsent : List (TlpSource × SendTLP)}

theorem WriteLink.init (io_wreq io_wbudget : BitVec 32)
    : WriteLink p (writeReset p io_wreq io_wbudget).1 (writeReset p io_wreq io_wbudget).2
        [] [] := by
  have noReset : ¬(writeReset p io_wreq io_wbudget).1.system.resetPending = true := by
    intro pending
    cases pending
  refine ⟨OneLoad.init rfl, ⟨?_, ⟨List.Pairwise.nil, fun pending => absurd pending noReset⟩,
    fun _ => ⟨rfl, rfl⟩, fun opened => absurd rfl opened,
    fun pending => absurd pending noReset, by simp⟩⟩
  refine ⟨Realign.aligned_reset, rfl, ?_, ?_, ?_, ?_, ?_, fun opened => absurd rfl opened,
    rfl⟩
  · intro b member
    cases member
  · intro tlp member
    cases member
  · intro tlp member
    cases member
  · intro tlp member
    cases member
  · intro addr data waiting
    cases waiting

/-- What the device answers while the host waits is the emit counter. -/
theorem WriteLink.gives (inv : WriteLink p s log sent unsent) {e : Event} {device : PcieCtrl}
    (inner : ∀ b, e ≠ .recvTLP b) (answers : AnswersHand log.1.hand e)
    (fired : s.device.step e = some device)
    : ∀ entry ∈ answersIn (s.device.offered e).toList,
        EmitCurrent s log.2 (completionData entry.2) := by
  rintro ⟨source, b⟩ member
  obtain ⟨load, waits, due⟩ := inv.one.gives inner answers fired member
  cases phase : s.host.call <;> simp only [writeThread, phase, reduceCtorEq] at waits
  next addr data =>
    cases waits
    have status : source = .status := by
      have sources : answerSource emitRead.tlp = some .status := by decide
      rw [answerDue_some sources, List.mem_singleton, answerGiven] at due
      exact (Prod.mk.inj due).1
    subst status
    have offers : s.device.offered e = some (.status, b) :=
      Option.mem_toList.mp (List.mem_filter.mp member).1
    have receives : ReceivesRequests e := by
      cases e
      case recvTLP b => exact absurd rfl (inner b)
      all_goals trivial
    have moves := request_step inv.one.requestsOnly receives fired
    rw [offers] at moves
    obtain ⟨tlp, inTlpQ, source, _, writeEmit⟩ := moves.status_value
    have load : tlp = emitRead.tlp := by
      rcases inv.budget.credit.inTlpQ tlp inTlpQ with write | load
      · have read := isRead_of_source source (by decide)
        rw [(isWrite_excludes write).1] at read
        cases read
      · exact load
    have value := writeEmit (by rw [load]; exact emitRead_fields.2.2)
    rw [value]
    exact EmitCurrent.now inv.budget phase

/-- Credits are kept by an event inside the device. -/
theorem WriteLink.credit (inv : WriteLink p s log sent unsent) {e : Event} {device : PcieCtrl}
    (inner : ∀ b, e ≠ .recvTLP b) (fired : s.device.step e = some device)
    (front : List SendTLP)
    : CreditInv (Linked.system { s with device, front })
        { log.2 with delivered := log.2.delivered + LinkEvent.delivers (.device e) } := by
  have safe : CreditSafe s.system (.device e) := by
    rintro rfl head
    refine inv.budget.resets.drained ?_
    obtain ⟨tlp, first, reset⟩ := (Option.any_eq_true _ _).mp head
    refine List.any_eq_true.mpr ⟨tlp, ?_, reset⟩
    have inQueue : tlp ∈ s.device.rx.tlp3Q.items := List.mem_of_mem_head? first
    simp [HostSystem.inFlight, Linked.system, inQueue]
  by_cases delivers : e = .dataReceive
  · subst delivers
    obtain ⟨⟨w, left⟩, delivered, rfl⟩ := Option.map_eq_some_iff.mp fired
    exact inv.budget.credit.dataReceive delivered
  · have moved := inv.budget.credit.device safe inner delivers fired
    cases e <;> first | exact moved | exact absurd rfl delivers

/-- Every allowed event keeps the budget. -/
theorem WriteLink.step (inv : WriteLink p s log sent unsent) {e : LinkEvent WriteRequest}
    (allowed : WritesUser (s, log) e) (fires : writeThread.step s e = some s')
    : ∃ sent' unsent', WriteLink p s' (log.1.recordLink s e, log.2.recordLink s e)
        sent' unsent' := by
  obtain ⟨answers, inside⟩ := allowed
  obtain ⟨one, budget⟩ := inv
  cases link_step fires with
  | @call c next called =>
      obtain ⟨rfl, linked⟩ := one.call writeThread_sequential called
      have sends : writeThread.sends s (.call c) = next.2 := by
        simp [HostThread.sends, called]
      refine ⟨sent, [], linked, ?_⟩
      rw [CreditLog.recordLink, sends]
      simp only [LinkEvent.delivers, Nat.add_zero]
      rcases c with _ | ⟨addr, data⟩
      · have started : next = s.host.init_pcie := by
          cases phase : s.host.call <;> simp only [writeThread, phase, reduceCtorEq] at called
          all_goals exact (Option.some.inj called).symm
        rw [started]
        exact budget.init_pcie inside
      · have idle : s.host.call = .idle ∧ next
            = s.host.writeWord (addr + BitVec.ofNat 32 config_buffer_size) data := by
          cases phase : s.host.call <;> simp only [writeThread, phase, reduceCtorEq] at called
          exact ⟨rfl, (Option.some.inj called).symm⟩
        have fits : addr.toNat + 16384 < 1048576 := inside
        have offset : (addr + BitVec.ofNat 32 config_buffer_size).toNat
            = addr.toNat + 16384 := by
          rw [BitVec.toNat_add]
          exact Nat.mod_eq_of_lt (by change addr.toNat + 16384 < 2 ^ 32; omega)
        rw [idle.2]
        refine budget.writeWord idle.1 ?_ ?_
        · rw [offset]
          exact Nat.le_add_left _ _
        · rw [offset]
          exact fits
  | @receive b wire device head fired =>
      have request := one.wire b (by simp [head])
      have receives : ReceivesRequests (.recvTLP b) := request
      have linked := one.receive head fired
      have event : s.deviceEvent (.receive : LinkEvent WriteRequest) = some (.recvTLP b) := by
        simp [Linked.deviceEvent, head]
      have credit : CreditInv (Linked.system { s with wire, device }) log.2 := by
        refine budget.credit.receive ?_
        simp only [HostSystem.step, Linked.system, head]
        simp only [PcieCtrl.step] at fired
        rw [fired]
        rfl
      have moves := flight_step wire one.requestsOnly receives fired s.front
        (by rw [accepts_recvTLP request, head]; rfl)
      refine ⟨sent, unsent, ?_, ?_⟩
      · simpa only [AnswerLog.recordLink, event] using linked
      · have history : log.2.recordLink s (.receive : LinkEvent WriteRequest) = log.2 := by
          simp [CreditLog.recordLink, HostThread.sends, userWrites, LinkEvent.delivers]
        have moved : WriteBudget { s with wire, device } log.2 (unsent ++ []) :=
          budget.device rfl credit moves rfl (Nat.le_refl _) (by simp)
        rw [history]
        rwa [List.append_nil] at moved
  | @device e device inner fired none =>
      have linked := one.inner inner answers fired none
      have credit := WriteLink.credit ⟨one, budget⟩ inner fired
        (openTLP s.front (s.device.transmitted e).toList)
      have gives := WriteLink.gives ⟨one, budget⟩ inner answers fired
      have receives : ReceivesRequests e := by
        cases e
        case recvTLP b => exact absurd rfl (inner b)
        all_goals trivial
      have moves := flight_step s.wire one.requestsOnly receives fired
        (openTLP s.front (s.device.transmitted e).toList)
        (by rw [accepts_inner inner]; rfl)
      have quiet : writeThread.sends s (.device e) = [] := by
        rw [Linked.arrival] at none
        rw [HostThread.sends, none]
        rfl
      have history : log.2.recordLink s (.device e)
          = { log.2 with delivered := log.2.delivered + LinkEvent.delivers (.device e) } := by
        rw [CreditLog.recordLink, quiet]
        rfl
      refine ⟨sent, unsent ++ answersIn (s.device.offered e).toList, linked, ?_⟩
      rw [history]
      exact budget.device rfl credit moves rfl (Nat.le_add_right _ _) gives
  | @arrival b completion device fired transmitted arrived =>
      obtain ⟨source, rfl⟩ := one.completion fired transmitted arrived
      have linked := one.arrival writeThread_sequential fired transmitted arrived
      have inner : ∀ b, Event.relayTLP ≠ .recvTLP b := fun b => by simp
      have credit := WriteLink.credit ⟨one, budget⟩ inner fired (openTLP s.front [b])
      have moves := flight_step s.wire one.requestsOnly (by exact trivial) fired
        (openTLP s.front [b]) (by rw [accepts_inner inner]; rfl)
      have moved : WriteBudget { s with device, front := openTLP s.front [b] } log.2
          ([(source, completion)] ++ []) :=
        budget.device rfl credit moves rfl (Nat.le_refl _) (by simp)
      have sends : writeThread.sends s (.device .relayTLP)
          = (writeThread.take s.host (some completion)).2 := by
        rw [HostThread.sends, transmitted, Option.bind_some, arrived]
      refine ⟨sent ++ [(source, completion)], [], linked, ?_⟩
      rw [CreditLog.recordLink, sends]
      have ignores : WriteBudget { s with
            wire := s.wire ++ [], device, front := openTLP s.front [b] }
          { log.2 with issued := log.2.issued + userWrites [] } [] := by
        rw [List.append_nil]
        exact ⟨moved.credit, moved.resets, moved.closed, moved.bounded, moved.stale, by simp⟩
      rcases writeThread.take_cases s.host completion with same | ⟨load, waits, loads⟩
      · rw [same]
        exact ignores
      · cases phase : s.host.call <;> simp only [writeThread, phase, reduceCtorEq] at waits
        next addr data =>
          have loads : writeThread.take s.host (some completion)
              = s.host.loaded addr data (completionData completion) := by
            rw [loads]
            simp only [writeThread, phase]
          rw [loads]
          exact moved.loaded phase (moved.current (source, completion) (by simp))

/-- After every run, one load is under way at most, and the budget holds; induction on the run.
-/
theorem write_link {io_wreq io_wbudget : BitVec 32}
    {state : Linked BdbmPcie × (AnswerLog × CreditLog)}
    (run : Reach writeStep WritesUser (writeReset p io_wreq io_wbudget) state)
    : ∃ sent unsent, WriteLink p state.1 state.2 sent unsent := by
  refine run.invariant (P := fun state => ∃ sent unsent,
    WriteLink p state.1 state.2 sent unsent) ⟨[], [], WriteLink.init io_wreq io_wbudget⟩ ?_
  rintro ⟨s, log⟩ e ⟨s', log'⟩ ⟨sent, unsent, inv⟩ allowed fires
  obtain ⟨fired, rfl⟩ := traced_eq_some.mp fires
  exact inv.step allowed fired

/-- A refill that issues a write leaves budget for more. -/
theorem refill_budget (h : BdbmPcie) (completion : Option SendTLP)
    : userWrites (writeThread.take h completion).2 = 0
      ∨ ((writeThread.take h completion).1.call ≠ .closed
        ∧ 1 ≤ (writeThread.take h completion).1.io_wbudget.toNat) := by
  have quiet : userWrites [] = 0 := rfl
  cases completion with
  | none => exact .inl quiet
  | some completion =>
      cases phase : h.call with
      | closed =>
          left
          simp [HostThread.take, writeThread, phase, userWrites]
      | idle =>
          left
          simp [HostThread.take, writeThread, phase, userWrites]
      | waiting addr data =>
          simp only [HostThread.take, writeThread, phase]
          by_cases same : completionId completion = requestId emitRead.tlp
          · rw [if_pos same, BdbmPcie.loaded]
            by_cases full : h.io_wreq - completionData completion ≥ io_queue_size / 2#32
            · rw [if_pos full]
              exact .inl userWrites_other.1
            · rw [if_neg full]
              have half : io_queue_size / 2#32 = 256#32 := by decide
              have size : io_queue_size = 512#32 := rfl
              rw [half] at full
              refine .inr ⟨by simp, ?_⟩
              simp only [size]
              bv_omega
          · rw [if_neg same]
            exact .inl quiet

end Runs

/-- The writes delivered since `Init_Pcie`, as far as the host's counter can tell: none while
its reset is under way, and then the emit counter.
-/
def Linked.deliveredSinceInit (s : Linked BdbmPcie) : BitVec 32 :=
  if s.system.resetPending then 0 else s.device.io.userWriteEmit

/-- When a call spends the last unit of the budget, some write has been delivered since the
refill that charged it: the host is not `IO_QUEUE_SIZE` and one ahead.
-/
def LastUnitSafe (s : Linked BdbmPcie) : LinkEvent WriteRequest → Prop
  | .call (.userWriteWord _ _) =>
      s.host.io_wbudget = 1 → s.host.io_wreq - s.deliveredSinceInit ≠ io_queue_size + 1
  | _ => True

instance (s : Linked BdbmPcie) (e : LinkEvent WriteRequest) : Decidable (LastUnitSafe s e) := by
  rcases e with (_ | _) | _ | _ <;> unfold LastUnitSafe <;> infer_instance

section Bounds

variable {p : PowerUp} {io_wreq io_wbudget : BitVec 32}
  {state : Linked BdbmPcie × (AnswerLog × CreditLog)}

/-- The host never leaves more than `IO_QUEUE_SIZE` and one user writes undelivered. -/
theorem undelivered_overshoot
    (run : Reach writeStep WritesUser (writeReset p io_wreq io_wbudget) state)
    : state.2.2.issued ≤ state.2.2.delivered + (io_queue_size.toNat + 1) := by
  obtain ⟨_, _, _, budget⟩ := write_link run
  change state.2.2.issued ≤ state.2.2.delivered + 513
  by_cases closed : state.1.host.call = .closed
  · have drained := (budget.closed closed).1
    omega
  · have bounded := budget.bounded closed
    omega

/-- A user write that spends a unit of the budget stays within the queue size, unless it is the
last one and nothing was delivered since the refill.
-/
theorem WriteLink.tight {s s' : Linked BdbmPcie} {log : AnswerLog × CreditLog}
    {sent unsent : List (TlpSource × SendTLP)} (inv : WriteLink p s log sent unsent)
    {e : LinkEvent WriteRequest} (allowed : WritesUser (s, log) e) (safe : LastUnitSafe s e)
    (fires : writeThread.step s e = some s') (within : log.2.issued ≤ log.2.delivered + 512)
    : (log.2.recordLink s e).issued ≤ (log.2.recordLink s e).delivered + 512 := by
  obtain ⟨sent', unsent', _, budget'⟩ := inv.step allowed fires
  simp only [CreditLog.recordLink] at budget' ⊢
  cases link_step fires with
  | @call c next called =>
      have sends : writeThread.sends s (.call c) = next.2 := by
        simp [HostThread.sends, called]
      rw [sends]
      rcases c with _ | ⟨addr, data⟩
      · have started : next = s.host.init_pcie := by
          cases phase : s.host.call <;> simp only [writeThread, phase, reduceCtorEq] at called
          all_goals exact (Option.some.inj called).symm
        have none : userWrites next.2 = 0 := by
          rw [started]
          exact userWrites_other.2
        omega
      · have idle : s.host.call = .idle ∧ next
            = s.host.writeWord (addr + BitVec.ofNat 32 config_buffer_size) data := by
          cases phase : s.host.call <;> simp only [writeThread, phase, reduceCtorEq] at called
          exact ⟨rfl, (Option.some.inj called).symm⟩
        by_cases spends : s.host.io_wbudget > 0#32
        · have one : userWrites next.2 ≤ 1 := by
            rw [idle.2, BdbmPcie.writeWord, if_pos spends]
            exact List.countP_le_length
          have opened : s.host.call ≠ .closed := by simp [idle.1]
          have bounded := inv.budget.bounded opened
          obtain ⟨ordered, counters⟩ := inv.budget.counters opened
          by_cases last : s.host.io_wbudget = 1
          · have ahead := safe last
            have charged : s.host.io_wreq - s.deliveredSinceInit
                = BitVec.ofNat 32 (log.2.issued - log.2.delivered + 1) := by
              rw [BitVec.ofNat_add, Linked.deliveredSinceInit]
              grind
            rw [charged] at ahead
            have fewer : log.2.issued - log.2.delivered ≠ 512 := by
              intro full
              rw [full] at ahead
              exact ahead (by decide)
            omega
          · have more : 2 ≤ s.host.io_wbudget.toNat := by
              bv_omega
            omega
        · have none : userWrites next.2 = 0 := by
            rw [idle.2, BdbmPcie.writeWord, if_neg spends]
            exact userWrites_other.1
          omega
  | receive _ _ =>
      have none : userWrites (writeThread.sends s .receive) = 0 := rfl
      omega
  | @device e device inner fired none =>
      have quiet : userWrites (writeThread.sends s (.device e)) = 0 := by
        rw [Linked.arrival] at none
        rw [HostThread.sends, none]
        rfl
      omega
  | @arrival b completion device fired transmitted arrived =>
      have sends : writeThread.sends s (.device .relayTLP)
          = (writeThread.take s.host (some completion)).2 := by
        rw [HostThread.sends, transmitted, Option.bind_some, arrived]
      rw [sends] at budget' ⊢
      rcases refill_budget s.host (some completion) with none | ⟨opened, more⟩
      · omega
      · have bounded := budget'.bounded opened
        simp only at bounded
        omega

/-- In every run in which no call spends the last unit of a refill before some write was
delivered since, the host never leaves more than `IO_QUEUE_SIZE` user writes undelivered;
induction on the run.
-/
theorem undelivered_bounded
    (run : Reach writeStep (fun state e => WritesUser state e ∧ LastUnitSafe state.1 e)
      (writeReset p io_wreq io_wbudget) state)
    : state.2.2.issued ≤ state.2.2.delivered + io_queue_size.toNat := by
  have all : (∃ sent unsent, WriteLink p state.1 state.2 sent unsent)
      ∧ state.2.2.issued ≤ state.2.2.delivered + 512 := by
    refine run.invariant (P := fun state =>
      (∃ sent unsent, WriteLink p state.1 state.2 sent unsent)
        ∧ state.2.2.issued ≤ state.2.2.delivered + 512)
      ⟨⟨[], [], WriteLink.init io_wreq io_wbudget⟩, Nat.zero_le _⟩ ?_
    rintro ⟨s, log⟩ e ⟨s', log'⟩ ⟨⟨sent, unsent, inv⟩, within⟩ ⟨allowed, safe⟩ fires
    obtain ⟨fired, rfl⟩ := traced_eq_some.mp fires
    exact ⟨inv.step allowed fired, inv.tight allowed safe fired within⟩
  exact all.2

end Bounds

/-- `Init_Pcie` and one user write, which loads the emit counter and refills the budget. -/
def refillRun : List (LinkEvent WriteRequest) :=
  [.call .initPcie, .receive, .device .filterStatReadTLP, .device .procTLP,
    .device .procIOWrite, .call (.userWriteWord 0 7), .receive, .device .filterStatReadTLP,
    .device (.sendTLPmRule (.inside false (.inside false .merge))),
    .device (.sendTLPmRule (.inside false (.ma1 false))),
    .device (.sendTLPmRule (.inside false .merge)), .device (.sendTLPmRule (.ma1 false)),
    .device (.sendTLPmRule .merge), .device .relayTLPm, .device .relayTLP]

/-- With a budget, as many user writes can follow without a delivery, where the calls are
allowed; induction on them.
-/
theorem spend_budget
    {ok : Linked BdbmPcie × (AnswerLog × CreditLog) → LinkEvent WriteRequest → Prop}
    {start state : Linked BdbmPcie × (AnswerLog × CreditLog)} (n : Nat)
    (run : Reach writeStep ok start state) (idle : state.1.host.call = .idle)
    (budget : n ≤ state.1.host.io_wbudget.toNat)
    (allowed
      : ∀ s log,
          s.host.io_wreq = state.1.host.io_wreq
          → s.deliveredSinceInit = state.1.deliveredSinceInit
          → ok (s, log) (.call (.userWriteWord 0 7)))
    : ∃ state', Reach writeStep ok start state' ∧ state'.1.host.call = .idle
        ∧ state'.1.host.io_wbudget.toNat = state.1.host.io_wbudget.toNat - n
        ∧ state'.1.host.io_wreq = state.1.host.io_wreq
        ∧ state'.1.deliveredSinceInit = state.1.deliveredSinceInit
        ∧ state'.2.2.issued = state.2.2.issued + n
        ∧ state'.2.2.delivered = state.2.2.delivered := by
  induction n with
  | zero => exact ⟨state, run, idle, rfl, rfl, rfl, rfl, rfl⟩
  | succ n ih =>
      obtain ⟨⟨s, log⟩, before, idle, left, wreq, since, issued, delivered⟩ := ih (by omega)
      have idle : s.host.call = .idle := idle
      have issued : log.2.issued = state.2.2.issued + n := issued
      have left : s.host.io_wbudget.toNat = state.1.host.io_wbudget.toNat - n := left
      have some : s.host.io_wbudget > 0#32 := by bv_omega
      have called : writeThread.call s.host (.userWriteWord 0 7)
          = Option.some ({ s.host with io_wbudget := s.host.io_wbudget - 1#32 },
            [hostWrite 16384 7]) := by
        simp only [writeThread, idle, BdbmPcie.writeWord, if_pos some]
        rfl
      have fires : writeThread.step s (.call (.userWriteWord 0 7))
          = Option.some { s with
              host := { s.host with io_wbudget := s.host.io_wbudget - 1#32 }
              wire := s.wire ++ [hostWrite 16384 7] } := by
        rw [HostThread.step, called]
        rfl
      have sends : writeThread.sends s (.call (.userWriteWord 0 7)) = [hostWrite 16384 7] := by
        rw [HostThread.sends, called]
        rfl
      have one : userWrites [hostWrite 16384 7] = 1 := by decide
      have noReset : isReset (hostWrite 16384 7).tlp = false := by decide
      have kept : Linked.deliveredSinceInit { s with
          host := { s.host with io_wbudget := s.host.io_wbudget - 1#32 }
          wire := s.wire ++ [hostWrite 16384 7] } = s.deliveredSinceInit := by
        simp only [Linked.deliveredSinceInit, HostSystem.resetPending, s.inFlight_sends,
          List.any_append, List.any_cons, noReset, List.any_nil, Bool.or_false]
        rfl
      have less : (s.host.io_wbudget - 1#32).toNat = s.host.io_wbudget.toNat - 1 := by bv_omega
      refine ⟨(_, _), before.tail (allowed s log wreq since) (traced_eq_some.mpr ⟨fires, rfl⟩),
        idle, ?_, wreq, kept.trans since, ?_, ?_⟩
      · simp only [less, left]
        omega
      · change (log.2.recordLink s (.call (.userWriteWord 0 7))).issued = _
        rw [CreditLog.recordLink, sends, one, issued, Nat.add_assoc]
      · exact delivered

/-- After one refill, the host leaves 513 user writes undelivered: the write that asked for the
emit counter, and the 512 of its budget.
-/
theorem undelivered_exceeds
    : ¬∀ state, Reach writeStep WritesUser (writeReset default 0 0) state →
        state.2.2.issued ≤ state.2.2.delivered + io_queue_size.toNat := by
  intro claim
  obtain ⟨state, run, seen⟩ := exec_reach_map writeStep WritesUser (writeReset default 0 0)
    refillRun
    (fun state => (state.1.host.call, state.1.host.io_wbudget, state.2.2.issued,
      state.2.2.delivered)) (.idle, 512, 1, 0)
    (by
      simp only [writeReset, mkPcieCtrl, mkMergeN_eight]
      decide +kernel)
  simp only [Prod.mk.injEq] at seen
  obtain ⟨idle, budget, issued, delivered⟩ := seen
  obtain ⟨last, run', _, _, _, _, issued', delivered'⟩ := spend_budget 512 run idle
    (by rw [budget]; decide) (fun _ _ _ _ => ⟨trivial, show 0 + 16384 < 1048576 by decide⟩)
  have within := claim last run'
  have size : io_queue_size.toNat = 512 := rfl
  omega

/-- The device delivers the write that asked for the refill. -/
def deliverOne : List (LinkEvent WriteRequest) :=
  [.receive, .device .filterStatReadTLP, .device .procTLP, .device .procIOWrite,
    .device .relayUserWriteQ, .device .relayUserWrite2Q, .device .dataReceive]

/-- The write that asked for the refill is delivered, and the budget of 512 is spent to its last
unit: 512 of the 513 user writes are undelivered.
-/
theorem undelivered_bounded_lastUnit
    : ∃ state,
        Reach writeStep (fun state e => WritesUser state e ∧ LastUnitSafe state.1 e)
          (writeReset default 0 0) state
        ∧ state.1.host.io_wbudget.toNat = 0
        ∧ state.2.2.issued = 513 ∧ state.2.2.delivered = 1
        ∧ state.2.2.issued ≤ state.2.2.delivered + io_queue_size.toNat := by
  obtain ⟨state, run, seen⟩ := exec_reach_map writeStep
    (fun state e => WritesUser state e ∧ LastUnitSafe state.1 e) (writeReset default 0 0)
    (refillRun ++ deliverOne)
    (fun state => (state.1.host.call, state.1.host.io_wbudget, state.1.host.io_wreq,
      state.1.deliveredSinceInit, state.2.2.issued, state.2.2.delivered))
    (.idle, 512, 513, 1, 1, 1)
    (by
      simp only [writeReset, mkPcieCtrl, mkMergeN_eight]
      decide +kernel)
  simp only [Prod.mk.injEq] at seen
  obtain ⟨idle, budget, wreq, since, issued, delivered⟩ := seen
  have safe (s : Linked BdbmPcie) (log : AnswerLog × CreditLog)
      (sameReq : s.host.io_wreq = state.1.host.io_wreq)
      (sameSince : s.deliveredSinceInit = state.1.deliveredSinceInit)
      : WritesUser (s, log) (.call (.userWriteWord 0 7))
        ∧ LastUnitSafe s (.call (.userWriteWord 0 7)) := by
    refine ⟨⟨trivial, show 0 + 16384 < 1048576 by decide⟩, ?_⟩
    intro _
    rw [sameReq, sameSince, wreq, since]
    decide
  obtain ⟨last, run', _, left, _, _, issued', delivered'⟩ := spend_budget 512 run idle
    (by rw [budget]; decide) safe
  rw [budget] at left
  exact ⟨last, run', left, by omega, by omega, undelivered_bounded run'⟩

end BluespecPcie

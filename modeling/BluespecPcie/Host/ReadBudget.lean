import BluespecPcie.Host.ReadWord

/-! How the budget of `readWord` and the wait of its refill follow the emit counter. -/

namespace BluespecPcie

open Bluespec

-----------------------------------------------------------------------------------------
-- The budget
-----------------------------------------------------------------------------------------

/-- The address a call reads. -/
def ReadCall.addr : ReadCall → Option (BitVec 32)
  | .idle => none
  | .emit addr | .spinning addr _ | .budgeted addr | .refilled addr => some addr

/-- The call waits for the emit counter. -/
def ReadCall.loadsEmit : ReadCall → Bool
  | .emit _ | .spinning _ _ => true
  | _ => false

/-- The data loads that `io_rreq` does not count yet. -/
def ReadCall.uncounted : ReadCall → Nat
  | .refilled _ => 1
  | _ => 0

/-- What a refill computes, by the loads of the configuration region before it. -/
def RefillExact (call : ReadCall) (refill : Nat × Option (BitVec 32)) : Prop :=
  match refill.2 with
  | some io_rbudget => io_rbudget.toNat + refill.1 % 65536 = 512 ∧ 1 ≤ io_rbudget.toNat
  | none => 512 ≤ refill.1 % 65536 ∧ ∃ addr iob, call = .spinning addr iob

/-- The host counts all data loads, the device the loads of the user region it handed over; a
load of the emit counter finds all of these handed over.
-/
structure ReadBudget (s : Linked ReadCredits) (log : ReadLog)
    (unsent : List (TlpSource × SendTLP)) : Prop where
  loads : ∀ tlp ∈ s.device.requests.flight ++ s.wire.map RxBeat.tlp,
    readThread.waitsFor s.host = some tlp
  inside : ∀ addr, s.host.call.addr = some addr → addr.toNat < bar0_size
  counted : s.device.io.userReadEmit
      + BitVec.ofNat 32 ((wireDue s.wire ++ s.device.requests.due).countP isUserDue)
    = BitVec.ofNat 32 log.userReads
  total : (s.host.io_rreq.toNat + s.host.call.uncounted) % 65536
    = (log.configReads + log.userReads) % 65536
  small : s.host.io_rreq.toNat < 65536
  current : s.host.call.loadsEmit = true → ∀ entry ∈ unsent,
    completionData entry.2 = BitVec.ofNat 32 log.userReads
  spins : ∀ addr iob, s.host.call = .spinning addr iob →
    log.userReads % 65536 + 512 ≤ iob.toNat ∧ ∃ before, (before, none) ∈ log.refills
  refills : ∀ refill ∈ log.refills, RefillExact s.host.call refill

section Arithmetic

/-- The low half of a word. -/
theorem toNat_and_ffff (x : BitVec 32) : (x &&& 0xffff#32).toNat = x.toNat % 65536 := by
  rw [BitVec.toNat_and]
  exact Nat.and_two_pow_sub_one_eq_mod x.toNat 16

/-- `io_rreq` after one more load. -/
theorem toNat_next (io_rreq : BitVec 32)
    : (0xffff#32 &&& (io_rreq + 1#32)).toNat = (io_rreq.toNat + 1) % 65536 := by
  rw [BitVec.and_comm, toNat_and_ffff]
  bv_omega

variable {io_rreq : BitVec 32} {configReads userReads : Nat}

/-- Past the wrap, `io_rreq` is ahead of the emit counter by the loads of the configuration
region, modulo the range of the counter.
-/
theorem wrapped_toNat
    (total : io_rreq.toNat = (configReads + userReads) % 65536)
    : (ReadCredits.wrapped io_rreq (BitVec.ofNat 32 userReads &&& 0xffff#32)).toNat
      = userReads % 65536 + configReads % 65536 := by
  have remit : (BitVec.ofNat 32 userReads &&& 0xffff#32).toNat = userReads % 65536 := by
    rw [toNat_and_ffff, BitVec.toNat_ofNat]
    omega
  unfold ReadCredits.wrapped
  split
  next behind =>
    have behind : io_rreq.toNat < userReads % 65536 := by
      rw [← remit]
      exact behind
    rw [BitVec.toNat_add, BitVec.toNat_ofNat]
    omega
  next notBehind =>
    have notBehind : userReads % 65536 ≤ io_rreq.toNat := by
      rw [← remit]
      exact Nat.le_of_not_lt notBehind
    omega

/-- The loop condition of a refill, by the loads of the user region. -/
theorem loops_iff (iob : BitVec 32)
    : iob ≥ (BitVec.ofNat 32 userReads &&& 0xffff#32) + io_queue_size
      ↔ userReads % 65536 + 512 ≤ iob.toNat := by
  have remit : (BitVec.ofNat 32 userReads &&& 0xffff#32).toNat = userReads % 65536 := by
    rw [toNat_and_ffff, BitVec.toNat_ofNat]
    omega
  have size : io_queue_size = 512#32 := rfl
  rw [size]
  change ((BitVec.ofNat 32 userReads &&& 0xffff#32) + 512#32).toNat ≤ iob.toNat ↔ _
  rw [BitVec.toNat_add, remit, BitVec.toNat_ofNat]
  omega

/-- The budget of a refill that leaves the loop. -/
theorem budget_toNat (userReads : Nat) (iob : BitVec 32) (ahead : userReads % 65536 ≤ iob.toNat)
    (leaves : iob.toNat < userReads % 65536 + 512)
    : ((BitVec.ofNat 32 userReads &&& 0xffff#32) + io_queue_size - iob).toNat
      = userReads % 65536 + 512 - iob.toNat := by
  have remit : (BitVec.ofNat 32 userReads &&& 0xffff#32).toNat = userReads % 65536 := by
    rw [toNat_and_ffff, BitVec.toNat_ofNat]
    omega
  have size : io_queue_size = 512#32 := rfl
  rw [size, BitVec.toNat_sub, BitVec.toNat_add, remit, BitVec.toNat_ofNat]
  omega

end Arithmetic

/-- The thread waits for a load only. -/
theorem readThread_waits {h : ReadCredits} {tlp : BitVec 128}
    (waits : readThread.waitsFor h = some tlp)
    : ∃ addr, tlp = (hostRead addr).tlp := by
  cases phase : h.call <;> simp only [readThread, phase, reduceCtorEq, Option.some.injEq] at waits
  · exact ⟨16376#32, waits.symm⟩
  · exact ⟨16376#32, waits.symm⟩
  · exact ⟨_, waits.symm⟩
  · exact ⟨_, waits.symm⟩

/-- A load calls for an answer. -/
theorem answerDue_load {h : ReadCredits} {tlp : BitVec 128}
    (waits : readThread.waitsFor h = some tlp)
    : answerDue tlp ≠ [] := by
  obtain ⟨addr, rfl⟩ := readThread_waits waits
  rw [answerDue, answerSource_read (hostRead_fields addr).2.1]
  split
  next => simp
  next =>
    split
    next => simp
    next => simp

section Steps

variable {p : PowerUp} {s : Linked ReadCredits} {log : ReadLog} {answers : AnswerLog}
  {sent unsent : List (TlpSource × SendTLP)}

/-- Loads only are in flight, so nothing waits to take effect as a write. -/
theorem ReadBudget.noWrites (inv : ReadBudget s log unsent) (only : RequestsOnly s.device)
    : s.device.requests.tlp3Q = [] := by
  refine List.eq_nil_iff_forall_not_mem.mpr fun tlp member => ?_
  have write := only.placed.inTlp3Q tlp member
  have waits := inv.loads tlp (by simp [RequestView.flight, member])
  obtain ⟨addr, rfl⟩ := readThread_waits waits
  rw [isRead_excludes (hostRead_fields addr).2.1] at write
  cases write

/-- Where no answer is due, nothing is in flight. -/
theorem ReadBudget.empty (inv : ReadBudget s log unsent) (wires : wireDue s.wire = [])
    (due : s.device.requests.due = [])
    : s.device.requests.flight = [] ∧ s.wire = [] := by
  constructor
  · refine List.eq_nil_iff_forall_not_mem.mpr fun tlp member => ?_
    have waits := inv.loads tlp (List.mem_append_left _ member)
    refine answerDue_load waits (List.eq_nil_iff_forall_not_mem.mpr fun token inDue => ?_)
    have more : token ∈ s.device.requests.due := by
      simp only [RequestView.flight, List.mem_append] at member
      refine List.mem_append_left _ (List.mem_append_left _ (List.mem_flatMap.mpr ⟨tlp, ?_, inDue⟩))
      simp only [List.mem_append]
      tauto
    rw [due] at more
    cases more
  · refine List.eq_nil_iff_forall_not_mem.mpr fun b member => ?_
    have waits := inv.loads b.tlp (List.mem_append_right _ (List.mem_map_of_mem member))
    refine answerDue_load waits (List.eq_nil_iff_forall_not_mem.mpr fun token inDue => ?_)
    have more : token ∈ wireDue s.wire := List.mem_flatMap.mpr ⟨b, member, inDue⟩
    rw [wires] at more
    cases more

/-- An event of the device. -/
theorem ReadBudget.device (inv : ReadBudget s log unsent) {e : Event} {device : PcieCtrl}
    (wire : List RxBeat) (front : List SendTLP) {given : List (TlpSource × SendTLP)}
    (only : RequestsOnly s.device) (receives : ReceivesRequests e)
    (fired : s.device.step e = some device)
    (wires : s.wire.map RxBeat.tlp
      = (s.device.requestCall e).accepts ++ wire.map RxBeat.tlp)
    (gives : s.host.call.loadsEmit = true → ∀ entry ∈ given,
      completionData entry.2 = BitVec.ofNat 32 log.userReads)
    : ReadBudget { s with wire, device, front } log (unsent ++ given) := by
  have moves := request_step only receives fired
  have noWrites := inv.noWrites only
  refine ⟨?_, inv.inside, ?_, inv.total, inv.small, ?_, inv.spins, inv.refills⟩
  · intro tlp member
    refine inv.loads tlp ?_
    rw [wires]
    exact (moves.flight only.placed (wire.map RxBeat.tlp)).subset member
  · have dues (beats : List RxBeat)
        : wireDue beats = (beats.map RxBeat.tlp).flatMap answerDue := by
      rw [List.flatMap_map]
      rfl
    have counted := inv.counted
    have grown := moves.userDue noWrites
    rw [dues, wires, List.flatMap_append, ← dues, List.append_assoc] at counted
    simp only [List.countP_append, BitVec.ofNat_add] at counted grown ⊢
    change device.requests.userReadEmit
      + (BitVec.ofNat 32 (List.countP isUserDue (wireDue wire))
        + BitVec.ofNat 32 (List.countP isUserDue device.requests.due)) = _
    rw [← counted]
    change _ = s.device.requests.userReadEmit + _
    grind
  · intro loadsEmit entry member
    rcases List.mem_append.mp member with old | new
    · exact inv.current loadsEmit entry old
    · exact gives loadsEmit entry new

/-- What the device answers to a load of the emit counter: the reads of the user region, all
of them handed over.
-/
theorem ReadBudget.gives (inv : ReadBudget s log unsent)
    (one : OneLoad readThread p s answers sent unsent) {e : Event} {device : PcieCtrl}
    (inner : ∀ b, e ≠ .recvTLP b) (allowed : AnswersHand answers.hand e)
    (fired : s.device.step e = some device) (loadsEmit : s.host.call.loadsEmit = true)
    : ∀ entry ∈ answersIn (s.device.offered e).toList,
        completionData entry.2 = BitVec.ofNat 32 log.userReads := by
  rintro ⟨source, b⟩ member
  have waits : readThread.waitsFor s.host = some remitRead.tlp := by
    cases phase : s.host.call <;> simp only [phase, ReadCall.loadsEmit, reduceCtorEq] at loadsEmit
    all_goals simp only [readThread, phase]
  have awaited : readThread.awaited s.host = answerDue remitRead.tlp := by
    simp [HostThread.awaited, waits]
  have tokens : ∀ token ∈ s.answersUnderWay answers unsent, token.1 = .status := by
    intro token underWay
    have due := one.single.subset underWay
    rw [awaited, answerDue_some remitRead_fields.1, List.mem_singleton] at due
    rw [due]
  obtain ⟨load, waits', due⟩ := one.gives inner allowed fired member
  rw [waits] at waits'
  cases waits'
  have status : source = .status := by
    rw [answerDue_some remitRead_fields.1, List.mem_singleton, answerGiven] at due
    exact (Prod.mk.inj due).1
  subst status
  have offers : s.device.offered e = some (.status, b) :=
    Option.mem_toList.mp (List.mem_filter.mp member).1
  have receives : ReceivesRequests e := by
    cases e
    case recvTLP b => exact absurd rfl (inner b)
    all_goals trivial
  have moves := request_step one.requestsOnly receives fired
  rw [offers] at moves
  obtain ⟨tlp, inTlpQ, _, readEmit, _⟩ := moves.status_value
  have load := inv.loads tlp (by simp [RequestView.flight, inTlpQ])
  rw [waits] at load
  cases load
  have value := readEmit remitRead_fields.2
  have none : (wireDue s.wire ++ s.device.requests.due).countP isUserDue = 0 := by
    refine List.countP_eq_zero.mpr fun token underWay => ?_
    have status := tokens token
      (List.mem_append_left _ (List.mem_append_left _ underWay))
    simp [isUserDue, status]
  have counted := inv.counted
  rw [none, BitVec.add_zero] at counted
  rw [value]
  exact counted

/-- A data load at an address inside BAR0, when nothing is under way: counted by the host at
once or after it, and by the device if it is of the user region.
-/
theorem ReadBudget.issues (inv : ReadBudget s log unsent) {addr : BitVec 32}
    {host : ReadCredits} {refills : List (Nat × Option (BitVec 32))}
    (inside : addr.toNat < bar0_size)
    (flight : s.device.requests.flight = []) (wire : s.wire = [])
    (due : s.device.requests.due = [])
    (call : host.call = .budgeted addr ∨ host.call = .refilled addr)
    (total : (host.io_rreq.toNat + host.call.uncounted) % 65536
      = (log.configReads + log.userReads + 1) % 65536)
    (small : host.io_rreq.toNat < 65536)
    (exact : ∀ refill ∈ refills, RefillExact host.call refill)
    : ReadBudget { s with host, wire := s.wire ++ [hostRead addr] }
        ({ log with refills }.issue addr) [] := by
  obtain ⟨source, sourced, user⟩ := answerDue_hostRead inside
  have waits : readThread.waitsFor host = some (hostRead addr).tlp := by
    rcases call with call | call <;> simp only [readThread, call]
  have counted := inv.counted
  rw [wire, due] at counted
  have counted : s.device.io.userReadEmit = BitVec.ofNat 32 log.userReads := by
    simpa [wireDue] using counted
  have dues : wireDue [hostRead addr] = [(source, requestId (hostRead addr).tlp)] := by
    simp [wireDue, answerDue_some sourced]
  have sums : ({ log with refills }.issue addr).configReads
        + ({ log with refills }.issue addr).userReads
      = log.configReads + log.userReads + 1 := by
    unfold ReadLog.issue
    split <;> simp only <;> omega
  have kept : ({ log with refills }.issue addr).refills = refills := by
    unfold ReadLog.issue
    split <;> rfl
  refine ⟨?_, ?_, ?_, by rw [sums]; exact total, small, ?_, ?_, by rw [kept]; exact exact⟩
  · intro tlp member
    simp only [flight, wire, List.nil_append, List.map_cons, List.map_nil,
      List.mem_singleton] at member
    rw [member]
    exact waits
  · intro other same
    rcases call with call | call <;>
    · simp only [call, ReadCall.addr, Option.some.injEq] at same
      rw [← same]
      exact inside
  · simp only [wire, List.nil_append, dues, due, List.append_nil, List.countP_singleton]
    by_cases above : config_buffer_size ≤ addr.toNat
    · have mine := user.mpr above
      subst mine
      have issued : ({ log with refills }.issue addr).userReads = log.userReads + 1 := by
        rw [ReadLog.issue, if_neg (Nat.not_lt.mpr above)]
      rw [issued, counted, if_pos (by rfl), BitVec.ofNat_add]
    · have other : ¬source = .user := fun mine => above (user.mp mine)
      have issued : ({ log with refills }.issue addr).userReads = log.userReads := by
        rw [ReadLog.issue, if_pos (Nat.lt_of_not_le above)]
      rw [issued, counted, if_neg (by simp [isUserDue, other])]
      exact BitVec.add_zero _
  · intro loadsEmit
    rcases call with call | call <;> simp only [call, ReadCall.loadsEmit, reduceCtorEq] at loadsEmit
  · intro other iob spinning
    rcases call with call | call <;> simp only [call, reduceCtorEq] at spinning

/-- A load of the emit counter, when nothing is under way. -/
theorem ReadBudget.asks (inv : ReadBudget s log unsent) {host : ReadCredits}
    {refills : List (Nat × Option (BitVec 32))}
    (flight : s.device.requests.flight = []) (wire : s.wire = [])
    (due : s.device.requests.due = [])
    (waits : readThread.waitsFor host = some remitRead.tlp)
    (inside : ∀ addr, host.call.addr = some addr → addr.toNat < bar0_size)
    (total : (host.io_rreq.toNat + host.call.uncounted) % 65536
      = (log.configReads + log.userReads) % 65536)
    (small : host.io_rreq.toNat < 65536)
    (spins : ∀ addr iob, host.call = .spinning addr iob →
      log.userReads % 65536 + 512 ≤ iob.toNat ∧ ∃ before, (before, none) ∈ refills)
    (exact : ∀ refill ∈ refills, RefillExact host.call refill)
    : ReadBudget { s with host, wire := s.wire ++ [remitRead] } { log with refills } [] := by
  have counted := inv.counted
  rw [wire, due] at counted
  refine ⟨?_, inside, ?_, total, small, by simp, spins, exact⟩
  · intro tlp member
    simp only [flight, wire, List.nil_append, List.map_cons, List.map_nil,
      List.mem_singleton] at member
    rw [member]
    exact waits
  · simp only [wire, List.nil_append, due, List.append_nil]
    have status : (wireDue [remitRead]).countP isUserDue = 0 := by decide
    rw [status]
    exact counted

/-- A completion that ends the call, or is nothing to it. -/
theorem ReadBudget.ends (inv : ReadBudget s log unsent) {host : ReadCredits}
    (flight : s.device.requests.flight = []) (wire : s.wire = [])
    (inside : ∀ addr, host.call.addr = some addr → addr.toNat < bar0_size)
    (total : (host.io_rreq.toNat + host.call.uncounted) % 65536
      = (log.configReads + log.userReads) % 65536)
    (small : host.io_rreq.toNat < 65536)
    (spins : ∀ addr iob, host.call = .spinning addr iob →
      log.userReads % 65536 + 512 ≤ iob.toNat ∧ ∃ before, (before, none) ∈ log.refills)
    (exact : ∀ refill ∈ log.refills, RefillExact host.call refill)
    : ReadBudget { s with host, wire := s.wire ++ [] } log [] := by
  rw [List.append_nil]
  refine ⟨?_, inside, inv.counted, total, small, by simp, spins, exact⟩
  intro tlp member
  rw [flight, wire] at member
  cases member

/-- Refills before stay exact once the host does not spin. -/
theorem RefillExact.kept {call call' : ReadCall} {refill : Nat × Option (BitVec 32)}
    (exact : RefillExact call refill) (notSpinning : ∀ addr iob, call ≠ .spinning addr iob)
    : RefillExact call' refill := by
  obtain ⟨before, budget⟩ := refill
  cases budget with
  | some io_rbudget => exact exact
  | none =>
      obtain ⟨_, addr, iob, spinning⟩ := exact
      exact absurd spinning (notSpinning addr iob)

/-- A call of `readWord` loads the data within the budget, or asks for the emit counter. -/
theorem ReadBudget.readWord (inv : ReadBudget s log unsent) (idle : s.host.call = .idle)
    {addr : BitVec 32} (inside : addr.toNat < bar0_size)
    (wires : wireDue s.wire = []) (due : s.device.requests.due = [])
    : ReadBudget { s with
          host := (s.host.readWord addr).1, wire := s.wire ++ (s.host.readWord addr).2 }
        (log.move s.host (s.host.readWord addr).1) [] := by
  obtain ⟨flight, wire⟩ := inv.empty wires due
  have total := inv.total
  have small := inv.small
  have notSpinning : ∀ addr iob, s.host.call ≠ .spinning addr iob := by simp [idle]
  have counted : s.host.io_rreq.toNat = (log.configReads + log.userReads) % 65536 := by
    simp only [idle, ReadCall.uncounted] at total
    omega
  unfold ReadCredits.readWord
  split
  next budget =>
    have moved : log.move s.host
        { io_rreq := 0xffff#32 &&& (s.host.io_rreq + 1#32)
          io_rbudget := s.host.io_rbudget - 1#32
          call := .budgeted addr } = { log with refills := log.refills }.issue addr := by
      simp only [ReadLog.move, idle]
    rw [moved]
    refine inv.issues inside flight wire due (.inl rfl) ?_ ?_ ?_
    · simp only [toNat_next, ReadCall.uncounted]
      omega
    · simp only [toNat_next]
      omega
    · exact fun refill member => (inv.refills refill member).kept notSpinning
  next empty =>
    have moved : log.move s.host { s.host with call := .emit addr }
        = { log with refills := log.refills } := by
      simp only [ReadLog.move, idle]
    rw [moved]
    refine inv.asks flight wire due rfl ?_ ?_ small ?_ ?_
    · intro other same
      cases same
      exact inside
    · simp only [ReadCall.uncounted]
      omega
    · rintro _ _ ⟨⟩
    · exact fun refill member => (inv.refills refill member).kept notSpinning

/-- The word loaded for a call: the data ends it; the emit counter refills the budget, or shows
that the loop does not end.
-/
theorem ReadBudget.loaded (inv : ReadBudget s log unsent) {word : BitVec 32}
    (wires : wireDue s.wire = []) (due : s.device.requests.due = [])
    (current : s.host.call.loadsEmit = true → word = BitVec.ofNat 32 log.userReads)
    : ReadBudget { s with
          host := (s.host.loaded word).1, wire := s.wire ++ (s.host.loaded word).2 }
        (log.move s.host (s.host.loaded word).1) [] := by
  obtain ⟨flight, wire⟩ := inv.empty wires due
  have total := inv.total
  have small := inv.small
  have inside := inv.inside
  cases phase : s.host.call with
  | idle =>
      have moved : log.move s.host s.host = log := by
        simp only [ReadLog.move, phase]
      simp only [ReadCredits.loaded, phase, moved]
      refine inv.ends flight wire inside total small ?_ inv.refills
      rw [phase]
      rintro _ _ ⟨⟩
  | emit addr =>
      have value := current (by rw [phase]; rfl)
      have notSpinning : ∀ addr iob, s.host.call ≠ .spinning addr iob := by simp [phase]
      have counted : s.host.io_rreq.toNat = (log.configReads + log.userReads) % 65536 := by
        simp only [phase, ReadCall.uncounted] at total
        omega
      have ahead := wrapped_toNat counted
      rw [phase] at inside
      simp only [ReadCredits.loaded, phase, value, ReadCredits.refill]
      split
      next loops =>
        have entered := (loops_iff _).mp loops
        have moved (iob : BitVec 32) : log.move s.host { s.host with call := .spinning addr iob }
            = { log with refills := log.refills ++ [(log.configReads, none)] } := by
          simp only [ReadLog.move, phase]
        rw [moved]
        refine inv.asks flight wire due rfl ?_ ?_ small ?_ ?_
        · intro other same
          cases same
          exact inside _ rfl
        · simp only [ReadCall.uncounted]
          omega
        · rintro _ _ ⟨⟩
          exact ⟨entered, _, List.mem_append_right _ (List.mem_singleton_self _)⟩
        · intro refill member
          rcases List.mem_append.mp member with old | new
          · exact (inv.refills refill old).kept notSpinning
          · rw [List.mem_singleton.mp new]
            exact ⟨by omega, _, _, rfl⟩
      next leaves =>
        have short : ¬log.userReads % 65536 + 512 ≤ (ReadCredits.wrapped s.host.io_rreq
            (BitVec.ofNat 32 log.userReads &&& 0xffff#32)).toNat :=
          fun entered => leaves ((loops_iff _).mpr entered)
        have budget := budget_toNat log.userReads (ReadCredits.wrapped s.host.io_rreq
          (BitVec.ofNat 32 log.userReads &&& 0xffff#32)) (by omega) (by omega)
        have moved (io_rbudget : BitVec 32)
            : log.move s.host { s.host with io_rbudget, call := .refilled addr }
              = { log with
                  refills := log.refills ++ [(log.configReads, some io_rbudget)] }.issue addr := by
          simp only [ReadLog.move, phase]
        rw [moved]
        refine inv.issues (inside _ rfl) flight wire due (.inr rfl) ?_ small ?_
        · simp only [ReadCall.uncounted]
          omega
        · intro refill member
          rcases List.mem_append.mp member with old | new
          · exact (inv.refills refill old).kept notSpinning
          · rw [List.mem_singleton.mp new]
            exact ⟨by simp only; omega, by omega⟩
  | spinning addr iob =>
      have value := current (by rw [phase]; rfl)
      have stuck := (inv.spins addr iob phase).1
      have again : s.host.loaded word = (s.host, [remitRead]) := by
        simp only [ReadCredits.loaded, phase, value, ReadCredits.refill,
          if_pos ((loops_iff iob).mpr stuck), Prod.mk.injEq, and_true]
        rw [← phase]
      have moved : log.move s.host s.host = { log with refills := log.refills } := by
        simp only [ReadLog.move, phase]
      rw [again, moved]
      exact inv.asks flight wire due (by simp only [readThread, phase]) inside total small
        inv.spins inv.refills
  | budgeted addr =>
      have moved : log.move s.host { s.host with call := .idle } = log := by
        simp only [ReadLog.move, phase]
      have notSpinning : ∀ addr iob, s.host.call ≠ .spinning addr iob := by simp [phase]
      simp only [ReadCredits.loaded, phase, moved]
      refine inv.ends flight wire (by rintro _ ⟨⟩) ?_ small (by rintro _ _ ⟨⟩)
        (fun refill member => (inv.refills refill member).kept notSpinning)
      simpa only [phase, ReadCall.uncounted] using total
  | refilled addr =>
      have moved : log.move s.host
          { s.host with io_rreq := 0xffff#32 &&& (s.host.io_rreq + 1#32), call := .idle }
            = log := by
        simp only [ReadLog.move, phase]
      have notSpinning : ∀ addr iob, s.host.call ≠ .spinning addr iob := by simp [phase]
      simp only [phase, ReadCall.uncounted] at total
      simp only [ReadCredits.loaded, phase, moved]
      refine inv.ends flight wire (by rintro _ ⟨⟩) ?_ ?_ (by rintro _ _ ⟨⟩)
        (fun refill member => (inv.refills refill member).kept notSpinning)
      · simp only [toNat_next, ReadCall.uncounted]
        omega
      · simp only [toNat_next]
        omega

end Steps

-----------------------------------------------------------------------------------------
-- Runs
-----------------------------------------------------------------------------------------

/-- One load under way, and the budget behind it. -/
structure ReadLink (p : PowerUp) (s : Linked ReadCredits) (log : AnswerLog × ReadLog)
    (sent unsent : List (TlpSource × SendTLP)) : Prop where
  one : OneLoad readThread p s log.1 sent unsent
  budget : ReadBudget s log.2 unsent

section Runs

variable {p : PowerUp} {s s' : Linked ReadCredits} {log : AnswerLog × ReadLog}
  {sent unsent : List (TlpSource × SendTLP)}

theorem ReadLink.init : ReadLink p (readReset p).1 (readReset p).2 [] [] := by
  refine ⟨OneLoad.init rfl, ?_⟩
  constructor
  case loads =>
    intro tlp member
    cases member
  case inside => rintro _ ⟨⟩
  case counted => rfl
  case total => rfl
  case small => exact Nat.zero_lt_succ 65535
  case current => rintro ⟨⟩
  case spins => rintro _ _ ⟨⟩
  case refills =>
    intro refill member
    cases member

/-- Staying where it is, the host makes no history. -/
theorem ReadLog.move_self (log : ReadLog) (h : ReadCredits) : log.move h h = log := by
  cases phase : h.call <;> simp only [ReadLog.move, phase]

/-- Every allowed event keeps the budget. -/
theorem ReadLink.step (inv : ReadLink p s log sent unsent) {e : LinkEvent (BitVec 32)}
    (allowed : ReadsBar (s, log) e) (fires : readThread.step s e = some s')
    : ∃ sent' unsent', ReadLink p s' (log.1.recordLink s e, log.2.recordLink s e)
        sent' unsent' := by
  obtain ⟨answers, inside⟩ := allowed
  obtain ⟨one, budget⟩ := inv
  have history : log.2.recordLink s e = log.2.move s.host s'.host := by
    simp only [ReadLog.recordLink, fires]
  rw [history]
  cases link_step fires with
  | @call addr next called =>
      obtain ⟨rfl, linked⟩ := one.call readThread_sequential called
      have idle : s.host.call = .idle ∧ next = s.host.readWord addr := by
        cases phase : s.host.call <;> simp only [readThread, phase, reduceCtorEq] at called
        exact ⟨rfl, (Option.some.inj called).symm⟩
      have quiet := one.quiet (by simp only [readThread, idle.1])
      simp only [Linked.answersUnderWay, List.append_eq_nil_iff] at quiet
      obtain ⟨⟨⟨wires, due⟩, _⟩, _⟩ := quiet
      refine ⟨sent, [], linked, ?_⟩
      simp only [idle.2]
      exact budget.readWord idle.1 inside wires due
  | @receive b wire device head fired =>
      have request := one.wire b (by simp [head])
      have linked := one.receive head fired
      have event : s.deviceEvent (.receive : LinkEvent (BitVec 32)) = some (.recvTLP b) := by
        simp [Linked.deviceEvent, head]
      have moved
          : ReadBudget { s with wire, device, front := s.front } log.2 (unsent ++ []) :=
        budget.device wire s.front one.requestsOnly
          (show ReceivesRequests (.recvTLP b) from request) fired
          (by rw [accepts_recvTLP request, head]; rfl) (by simp)
      refine ⟨sent, unsent, ?_, ?_⟩
      · simpa only [AnswerLog.recordLink, event] using linked
      · simp only [ReadLog.move_self]
        rwa [List.append_nil] at moved
  | @device e device inner fired none =>
      have linked := one.inner inner answers fired none
      have receives : ReceivesRequests e := by
        cases e
        case recvTLP b => exact absurd rfl (inner b)
        all_goals trivial
      refine ⟨sent, unsent ++ answersIn (s.device.offered e).toList, linked, ?_⟩
      simp only [ReadLog.move_self]
      exact budget.device s.wire _ one.requestsOnly receives fired
        (by rw [accepts_inner inner]; rfl) (budget.gives one inner answers fired)
  | @arrival b completion device fired transmitted arrived =>
      obtain ⟨source, rfl⟩ := one.completion fired transmitted arrived
      have linked := one.arrival readThread_sequential fired transmitted arrived
      have inner : ∀ b, Event.relayTLP ≠ .recvTLP b := fun b => by simp
      have moved := budget.device s.wire (openTLP s.front [b]) one.requestsOnly
        (by exact trivial) fired (by rw [accepts_inner inner]; rfl)
        (budget.gives one inner answers fired)
      obtain ⟨wires, due, _⟩ := one.alone
      rw [← PcieCtrl.relayTLP_requests fired] at due
      refine ⟨sent ++ [(source, completion)], [], linked, ?_⟩
      rcases readThread.take_cases s.host completion with same | ⟨load, _, loads⟩
      · have nothing := moved.empty wires due
        simp only [same, ReadLog.move_self]
        exact moved.ends nothing.1 nothing.2 moved.inside moved.total moved.small moved.spins
          moved.refills
      · simp only [loads]
        exact moved.loaded wires due fun loadsEmit =>
          moved.current loadsEmit (source, completion) (by simp)

/-- After every run, one load is under way at most, and the budget holds; induction on the run.
-/
theorem read_link {state : Linked ReadCredits × (AnswerLog × ReadLog)}
    (run : Reach readStep ReadsBar (readReset p) state)
    : ∃ sent unsent, ReadLink p state.1 state.2 sent unsent := by
  refine run.invariant (P := fun state => ∃ sent unsent,
    ReadLink p state.1 state.2 sent unsent) ⟨[], [], ReadLink.init⟩ ?_
  rintro ⟨s, log⟩ e ⟨s', log'⟩ ⟨sent, unsent, inv⟩ allowed fires
  obtain ⟨fired, rfl⟩ := traced_eq_some.mp fires
  exact inv.step allowed fired

/-- A call in the loop stays in it. -/
theorem ReadLink.spins_on (inv : ReadLink p s log sent unsent) {e : LinkEvent (BitVec 32)}
    {addr iob : BitVec 32} (spinning : s.host.call = .spinning addr iob)
    (fires : readThread.step s e = some s')
    : s'.host.call = .spinning addr iob := by
  obtain ⟨one, budget⟩ := inv
  cases link_step fires with
  | call called => simp only [readThread, spinning, reduceCtorEq] at called
  | receive _ _ => exact spinning
  | device _ _ _ => exact spinning
  | @arrival b completion device fired transmitted arrived =>
      obtain ⟨source, rfl⟩ := one.completion fired transmitted arrived
      rcases readThread.take_cases s.host completion with same | ⟨load, _, loads⟩
      · simp only [same]
        exact spinning
      · have value := budget.current (by rw [spinning]; rfl) (source, completion) (by simp)
        have stuck := (loops_iff iob).mpr (budget.spins addr iob spinning).1
        have again : (readThread.loaded s.host (completionData completion)).1.call
            = .spinning addr iob := by
          simp only [readThread, ReadCredits.loaded, spinning, value, ReadCredits.refill,
            if_pos stuck]
        rw [loads]
        exact again

/-- A call that has entered the loop never leaves it; induction on what follows. -/
theorem spinning_forever {state later : Linked ReadCredits × (AnswerLog × ReadLog)}
    (run : Reach readStep ReadsBar (readReset p) state) {addr iob : BitVec 32}
    (spinning : state.1.host.call = .spinning addr iob)
    (follows : Reach readStep ReadsBar state later)
    : later.1.host.call = .spinning addr iob := by
  have both : Reach readStep ReadsBar (readReset p) later
      ∧ later.1.host.call = .spinning addr iob := by
    induction follows with
    | refl => exact ⟨run, spinning⟩
    | @tail mid next e _ allowed fires ih =>
        obtain ⟨before, still⟩ := ih
        obtain ⟨_, _, inv⟩ := read_link before
        exact ⟨before.tail allowed fires, inv.spins_on still (traced_eq_some.mp fires).1⟩
  exact both.2

end Runs

/-- The wait of `readWord` has not trapped its caller: every budget a refill computed lies
between 1 and `IO_QUEUE_SIZE`, and a call in the loop can still leave it.
-/
def ReadsFlow (state : Linked ReadCredits × (AnswerLog × ReadLog)) : Prop :=
  (∀ refill ∈ state.2.2.refills, ∀ io_rbudget, refill.2 = some io_rbudget →
      1 ≤ io_rbudget.toNat ∧ io_rbudget ≤ io_queue_size)
    ∧ ∀ addr iob, state.1.host.call = .spinning addr iob →
        ∃ later, Reach readStep ReadsBar state later
          ∧ later.1.host.call ≠ .spinning addr iob

/-- In every run of `readWord` calls, the wait traps no caller exactly if each refill finds
fewer than `IO_QUEUE_SIZE` loads of the configuration region before it, modulo the range of
`io_rreq`.
-/
theorem reads_flow_iff {p : PowerUp} {state : Linked ReadCredits × (AnswerLog × ReadLog)}
    (run : Reach readStep ReadsBar (readReset p) state)
    : ReadsFlow state
      ↔ ∀ refill ∈ state.2.2.refills, refill.1 % 2 ^ 16 < io_queue_size.toNat := by
  obtain ⟨_, _, inv⟩ := read_link run
  have exact := inv.budget.refills
  constructor
  · rintro ⟨_, leaves⟩ ⟨before, budget⟩ member
    cases budget with
    | some io_rbudget =>
        have computed : io_rbudget.toNat + before % 65536 = 512 ∧ 1 ≤ io_rbudget.toNat :=
          exact _ member
        change before % 65536 < 512
        omega
    | none =>
        obtain ⟨_, addr, iob, spinning⟩ := exact _ member
        obtain ⟨later, follows, left⟩ := leaves addr iob spinning
        exact absurd (spinning_forever run spinning follows) left
  · intro few
    refine ⟨?_, ?_⟩
    · rintro ⟨before, _⟩ member io_rbudget rfl
      have computed : io_rbudget.toNat + before % 65536 = 512 ∧ 1 ≤ io_rbudget.toNat :=
        exact _ member
      refine ⟨computed.2, BitVec.le_def.mpr ?_⟩
      change io_rbudget.toNat ≤ 512
      omega
    · intro addr iob spinning
      obtain ⟨_, before, member⟩ := inv.budget.spins addr iob spinning
      have entered : 512 ≤ before % 65536 ∧ _ := exact _ member
      have few : before % 65536 < 512 := few _ member
      omega

/-- The completion of a load of a status register, from the filter to the send queue. -/
def statusEvents : List Event :=
  [.filterStatReadTLP, .sendTLPmRule (.inside false (.inside false .merge)),
    .sendTLPmRule (.inside false (.ma1 false)), .sendTLPmRule (.inside false .merge),
    .sendTLPmRule (.ma1 false), .sendTLPmRule .merge, .relayTLPm]

/-- A load of a status register, through the device and back to the host. -/
def statusRound : List (LinkEvent (BitVec 32)) :=
  .receive :: statusEvents.map .device ++ [.device .relayTLP]

/-- The device after one such load: three merges of its tree have served their first input. -/
def servedOnce : PcieCtrl :=
  { mkPcieCtrl default with
    tx.sendTLPm :=
      .node
        (.node (.pair ⟨.empty, .empty, .empty, true⟩) (.pair Merge2.init)
          ⟨.empty, .empty, .empty, true⟩)
        (.node (.pair Merge2.init) (.pair Merge2.init) Merge2.init)
        ⟨.empty, .empty, .empty, true⟩ }

/-- A load leads the device from one state to another, and is answered with `data`. -/
def AnswersLoad (d d' : PcieCtrl) (load : RxBeat) (data : BitVec 32) : Prop :=
  ∃ completion, (exec PcieCtrl.step d (.recvTLP load :: statusEvents)).bind PcieCtrl.relayTLP
        = some (completion, d')
      ∧ completion.last = 1#1 ∧ completionOf [completion] = some completion
      ∧ completionId completion = requestId load.tlp ∧ completionData completion = data

/-- The device answers loads of offset 0 and of the emit counter, with its merges served an even
or an odd number of times.
-/
theorem answers_loads
    : AnswersLoad (mkPcieCtrl default) servedOnce remitRead 0
      ∧ AnswersLoad (mkPcieCtrl default) servedOnce (hostRead 0) 0xc001d00d
      ∧ AnswersLoad servedOnce (mkPcieCtrl default) (hostRead 0) 0xc001d00d := by
  simp only [AnswersLoad, servedOnce, mkPcieCtrl, mkMergeN_eight]
  refine ⟨⟨_, rfl, rfl, ?_⟩, ⟨_, rfl, rfl, ?_⟩, ⟨_, rfl, rfl, ?_⟩⟩
  all_goals decide +kernel

section Rounds

variable {h : ReadCredits} {d d' : PcieCtrl} {load : RxBeat} {data : BitVec 32}

/-- The thread takes the answer to its load. -/
theorem status_round (answers : AnswersLoad d d' load data)
    (waits : readThread.waitsFor h = some load.tlp)
    : exec readThread.step ⟨h, [load], [], d⟩ statusRound
      = some ⟨(h.loaded data).1, (h.loaded data).2, [], d'⟩ := by
  obtain ⟨completion, done, last, whole, same, value⟩ := answers
  obtain ⟨ready, done, sent⟩ := Option.bind_eq_some_iff.mp done
  unfold exec at done
  split at done
  next => cases done
  next received fired =>
    have inner : exec readThread.step ⟨h, [], [], received⟩ (statusEvents.map .device)
        = some ⟨h, [], [], ready⟩ :=
      exec_device (s := ⟨h, [], [], received⟩) (by simp [statusEvents]) done
    have taken : readThread.take h (arrivedCompletion [] completion) = h.loaded data := by
      rw [arrivedCompletion, if_pos last, List.nil_append, whole]
      simp only [HostThread.take, waits, if_pos same, value]
      rfl
    have arrives : readThread.step ⟨h, [], [], ready⟩ (.device .relayTLP)
        = some ⟨(h.loaded data).1, (h.loaded data).2, [], d'⟩ := by
      rw [HostThread.step, sent]
      simp only [Option.map_some, HostThread.arrive, taken, openTLP, if_pos last,
        List.nil_append]
    have receives : readThread.step ⟨h, [load], [], d⟩ .receive
        = some ⟨h, [], [], received⟩ :=
      Option.map_eq_some_iff.mpr ⟨received, fired, rfl⟩
    rw [statusRound, List.cons_append, exec, receives]
    simp only [exec_append inner, exec, arrives]

/-- The events of such a round are allowed anywhere. -/
theorem statusRound_allowed
    : ∀ e ∈ (.call 0 :: statusRound : List (LinkEvent (BitVec 32))), ∀ state,
        ReadsBar state e := by
  intro e member state
  simp only [statusRound, statusEvents, List.map_cons, List.map_nil, List.cons_append,
    List.nil_append, List.mem_cons, List.not_mem_nil, or_false] at member
  rcases member with rfl | rfl | rfl | rfl | rfl | rfl | rfl | rfl | rfl | rfl
  · exact ⟨trivial, show 0 < 1048576 by decide⟩
  all_goals exact ⟨trivial, trivial⟩

/-- A schedule of such events is a run. -/
theorem read_run {s s' : Linked ReadCredits} {es : List (LinkEvent (BitVec 32))}
    (events : es ⊆ .call 0 :: statusRound) (done : exec readThread.step s es = some s')
    (log : AnswerLog × ReadLog)
    : ∃ log', Reach readStep ReadsBar (s, log) (s', log') :=
  exec_traced (fun e member => statusRound_allowed e (events member)) done log

/-- A data load of offset 0 within the budget. -/
theorem budget_round (answers : AnswersLoad d d' (hostRead 0) data) (idle : h.call = .idle)
    (budget : 0 < h.io_rbudget.toNat)
    : exec readThread.step ⟨h, [], [], d⟩ (.call 0 :: statusRound)
      = some ⟨{ io_rreq := 0xffff#32 &&& (h.io_rreq + 1#32)
                io_rbudget := h.io_rbudget - 1#32
                call := .idle }, [], [], d'⟩ := by
  have called : readThread.call h 0 = some (h.readWord 0) := by
    simp only [readThread, idle]
  have some : h.io_rbudget > 0#32 := budget
  have fires : readThread.step ⟨h, [], [], d⟩ (.call 0)
      = Option.some ⟨(h.readWord 0).1, (h.readWord 0).2, [], d⟩ := by
    rw [HostThread.step, called]
    rfl
  rw [exec, fires, ReadCredits.readWord, if_pos some]
  exact status_round answers rfl

/-- With a budget, twice as many data loads of offset 0 can follow; induction on them, two at a
time, after which the device is as it was.
-/
theorem spend_rbudget {start : Linked ReadCredits × (AnswerLog × ReadLog)}
    {log : AnswerLog × ReadLog} (n : Nat)
    (run : Reach readStep ReadsBar start (⟨h, [], [], mkPcieCtrl default⟩, log))
    (idle : h.call = .idle) (budget : 2 * n ≤ h.io_rbudget.toNat)
    (small : h.io_rreq.toNat + 2 * n < 65536)
    : ∃ h' log', Reach readStep ReadsBar start (⟨h', [], [], mkPcieCtrl default⟩, log')
        ∧ h'.call = .idle ∧ h'.io_rbudget.toNat = h.io_rbudget.toNat - 2 * n
        ∧ h'.io_rreq.toNat = h.io_rreq.toNat + 2 * n := by
  induction n with
  | zero => exact ⟨h, log, run, idle, rfl, rfl⟩
  | succ n ih =>
      obtain ⟨h', log', before, idle, left, counted⟩ := ih (by omega) (by omega)
      obtain ⟨_, even, odd⟩ := answers_loads
      have first := budget_round even idle (by omega)
      obtain ⟨log1, run1⟩ := read_run (List.Subset.refl _) first log'
      have second := budget_round odd (h := { io_rreq := 0xffff#32 &&& (h'.io_rreq + 1#32)
                                              io_rbudget := h'.io_rbudget - 1#32
                                              call := .idle }) rfl (by simp only; bv_omega)
      obtain ⟨log2, run2⟩ := read_run (List.Subset.refl _) second log1
      refine ⟨_, log2, (before.trans run1).trans run2, rfl, ?_, ?_⟩
      · simp only
        bv_omega
      · simp only [toNat_next]
        omega

end Rounds

/-- The wait traps a caller: after 513 loads of offset 0, the refill finds the emit counter at
0, and the loop never ends.
-/
theorem reads_trapped
    : ¬∀ state, Reach readStep ReadsBar (readReset default) state → ReadsFlow state := by
  intro claim
  obtain ⟨emit, _, refilled⟩ := answers_loads
  -- the first call refills the budget
  have asks : exec readThread.step (readReset default).1 (.call 0 :: statusRound)
      = some ⟨⟨0, 512, .refilled 0⟩, [hostRead 0], [], servedOnce⟩ :=
    status_round (h := ⟨0, 0, .emit 0⟩) emit rfl
  have loads : exec readThread.step ⟨⟨0, 512, .refilled 0⟩, [hostRead 0], [], servedOnce⟩
        statusRound
      = some ⟨⟨1, 512, .idle⟩, [], [], mkPcieCtrl default⟩ :=
    status_round (h := ⟨0, 512, .refilled 0⟩) refilled rfl
  obtain ⟨log1, run1⟩ := read_run (List.Subset.refl _) asks (readReset default).2
  obtain ⟨log2, run2⟩ := read_run (List.subset_cons_self _ _) loads log1
  -- the next 512 spend it
  obtain ⟨⟨io_rreq, io_rbudget, call⟩, log3, run3, idle, spent, counted⟩ :=
    spend_rbudget 256 (run1.trans run2) rfl (by decide) (by decide)
  have empty : io_rbudget = 0#32 := BitVec.eq_of_toNat_eq spent
  have reads : io_rreq = 513#32 := BitVec.eq_of_toNat_eq counted
  have between : call = .idle := idle
  subst empty reads between
  -- and the one after them enters the loop
  have enters : exec readThread.step ⟨⟨513, 0, .idle⟩, [], [], mkPcieCtrl default⟩
        (.call 0 :: statusRound)
      = some ⟨⟨513, 0, .spinning 0 513⟩, [remitRead], [], servedOnce⟩ :=
    status_round (h := ⟨513, 0, .emit 0⟩) emit rfl
  obtain ⟨log4, run4⟩ := read_run (List.Subset.refl _) enters log3
  have run := run3.trans run4
  obtain ⟨later, follows, left⟩ := (claim _ run).2 0 513 rfl
  exact left (spinning_forever run rfl follows)

/-- After one load of offset 0, the one refill has found none of the configuration region
before it.
-/
theorem reads_flow_iff_firstRead
    : ∃ state, Reach readStep ReadsBar (readReset default) state
        ∧ state.2.2.refills = [(0, some 512)]
        ∧ (ReadsFlow state
          ↔ ∀ refill ∈ state.2.2.refills, refill.1 % 2 ^ 16 < io_queue_size.toNat) := by
  obtain ⟨state, run, seen⟩ := exec_reach_map readStep ReadsBar (readReset default)
    (.call 0 :: statusRound) (fun state => state.2.2.refills) [(0, some 512)]
    (by
      simp only [readReset, mkPcieCtrl, mkMergeN_eight]
      decide +kernel)
  exact ⟨state, run, seen, reads_flow_iff run⟩

end BluespecPcie

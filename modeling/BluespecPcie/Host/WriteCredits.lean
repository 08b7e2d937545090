import BluespecPcie.Bluespec.Bits
import BluespecPcie.Host.Bdbmpcie
import BluespecPcie.PcieCtrl.Realignment

/-! Write credits: what the host's counters say about the writes the device holds. -/

namespace BluespecPcie

open Bluespec

-----------------------------------------------------------------------------------------
-- The TLPs of the host
-----------------------------------------------------------------------------------------

/-- A beat of the host: a write, or the load of the emit counter. -/
def HostBeat (tlp : BitVec 128) : Prop := isWrite (tlpType tlp) = true ∨ tlp = emitRead.tlp

/-- A store is a 32-bit memory write at the word of its address. -/
theorem hostWrite_fields (addr data : BitVec 32)
    : tlpType (hostWrite addr data).tlp = type_wr32_mem
      ∧ (internalAddr (hostWrite addr data).tlp).toNat = addr.toNat / 4 * 4 % 2 ^ 20 := by
  obtain ⟨cdw0, -, cdw2, -⟩ := dword_packDWs (reverseEndian data) (addr >>> 2 <<< 2)
    0x0000000f#32 0x40000001#32
  constructor
  · rw [tlpType_eq, hostWrite, cdw0]
    decide
  · rw [internalAddr, requestAddr_eq, hostWrite, cdw2]
    simp only [BitVec.truncate, BitVec.toNat_setWidth, toNat_append_add,
      BitVec.extractLsb_toNat, BitVec.toNat_shiftLeft, BitVec.toNat_ushiftRight,
      Nat.shiftRight_eq_div_pow, Nat.shiftLeft_eq, BitVec.toNat_ofNat]
    omega

/-- A store is a write. -/
theorem isWrite_hostWrite (addr data : BitVec 32)
    : isWrite (tlpType (hostWrite addr data).tlp) = true := by
  rw [(hostWrite_fields addr data).1]
  rfl

/-- A write is neither a read nor a completion. -/
theorem isWrite_excludes {ptype : BitVec 7} (write : isWrite ptype = true)
    : isRead ptype = false ∧ isCompletion ptype = false := by
  simp only [isWrite, Bool.or_eq_true, beq_iff_eq] at write
  rcases write with rfl | rfl <;> decide

/-- The device takes the load of the emit counter for a read. -/
theorem emitRead_fields
    : isRead (tlpType emitRead.tlp) = true ∧ isWrite (tlpType emitRead.tlp) = false
      ∧ internalAddr emitRead.tlp = io_userspace_offset - 4 := by
  decide

/-- The device answers the load of the emit counter at once. -/
theorem statusRegister_emitRead (d : PcieCtrl)
    : d.statusRegister ((requestAddr emitRead.tlp).truncate 20) = some d.io.userWriteEmit := by
  rw [show (requestAddr emitRead.tlp).truncate 20 = io_userspace_offset - 4 by decide]
  rfl

/-- A store to the user region is a user write, and no reset. -/
theorem hostWrite_user {addr data : BitVec 32} (user : config_buffer_size ≤ addr.toNat)
    (inside : addr.toNat < bar0_size)
    : isUserWrite (hostWrite addr data).tlp = true
      ∧ isReset (hostWrite addr data).tlp = false := by
  have index := (hostWrite_fields addr data).2
  unfold config_buffer_size at user
  unfold bar0_size at inside
  simp only [isUserWrite, isReset, isWrite_hostWrite, Bool.true_and]
  constructor
  · rw [Bool.not_eq_true', decide_eq_false_iff_not, BitVec.lt_def, index]
    change ¬addr.toNat / 4 * 4 % 2 ^ 20 < 16384
    omega
  · rw [beq_eq_false_iff_ne]
    intro zero
    rw [zero] at index
    simp only [BitVec.toNat_ofNat] at index
    omega

/-- The store of `Init_Pcie` is a reset. -/
theorem hostWrite_reset
    : isReset (hostWrite 0#32 0#32).tlp = true ∧ isUserWrite (hostWrite 0#32 0#32).tlp = false := by
  decide

-----------------------------------------------------------------------------------------
-- Credits in flight
-----------------------------------------------------------------------------------------

/-- What a TLP does to the sum of delivered and queued user writes when the device acts on
it: a reset clears it, a user write adds one.
-/
def credit (c : BitVec 32) (tlp : BitVec 128) : BitVec 32 :=
  if isReset tlp then 0#32 else if isUserWrite tlp then c + 1#32 else c

/-- Without a reset, the user writes in flight are added; induction on the TLPs. -/
theorem foldl_credit (c : BitVec 32) (tlps : List (BitVec 128))
    (noReset : tlps.any isReset = false)
    : tlps.foldl credit c = c + BitVec.ofNat 32 (tlps.countP isUserWrite) := by
  induction tlps generalizing c with
  | nil => simp
  | cons tlp rest ih =>
      simp only [List.any_cons, Bool.or_eq_false_iff] at noReset
      rw [List.foldl_cons, ih _ noReset.2, credit, if_neg (by simp [noReset.1])]
      by_cases user : isUserWrite tlp
      · rw [if_pos user, List.countP_cons_of_pos user, Nat.add_comm, BitVec.ofNat_add,
          BitVec.add_assoc]
      · rw [if_neg user, List.countP_cons_of_neg user]

/-- Where the credits of a run are: the host's counters say what the device will have
delivered and queued once it has acted on everything in flight.
-/
structure CreditInv (s : HostSystem) (log : CreditLog) : Prop where
  aligned : s.device.rx.realign.Aligned
  idle : s.device.rx.completionRecvLength = 0#10
  onWire : ∀ b ∈ s.wire, b.sof_right = true ∧ HostBeat b.tlp
  inTlpQ : ∀ tlp ∈ s.device.rx.tlpQ.items, HostBeat tlp
  inTlp2Q : ∀ tlp ∈ s.device.rx.tlp2Q.items, isWrite (tlpType tlp) = true
  inTlp3Q : ∀ tlp ∈ s.device.rx.tlp3Q.items, isWrite (tlpType tlp) = true
  waiting : ∀ addr data, s.host.call = .waiting addr data →
    (config_buffer_size ≤ addr.toNat ∧ addr.toNat < bar0_size) ∧ s.host.io_wbudget = 0#32
  credits : s.host.call ≠ .closed →
    s.inFlight.foldl credit
        (s.device.io.userWriteEmit + BitVec.ofNat 32 s.device.queuedWrites)
      = s.host.io_wreq - s.host.io_wbudget
  undelivered : log.issued
    = log.delivered + s.inFlight.countP isUserWrite + s.device.queuedWrites

/-- Calls that stay within the user region, and resets that take effect on a drained device.
-/
def CreditSafe (s : HostSystem) : HostEvent → Prop
  | .writeWord addr _ => config_buffer_size ≤ addr.toNat ∧ addr.toNat < bar0_size
  | .device e =>
      e = .procIOWrite → s.device.rx.tlp3Q.items.head?.any isReset = true →
        s.device.queuedWrites = 0
  | .initPcie | .receive => True

instance (s : HostSystem) (e : HostEvent) : Decidable (CreditSafe s e) :=
  match e with
  | .writeWord _ _ => inferInstanceAs (Decidable (_ ∧ _))
  | .device _ => inferInstanceAs (Decidable (_ = _ → _ = _ → _ = _))
  | .initPcie | .receive => isTrue trivial

-----------------------------------------------------------------------------------------
-- One step
-----------------------------------------------------------------------------------------

section Step

variable {s s' : HostSystem} {log : CreditLog}

/-- TLPs the host sends join those in flight, and their user writes those issued. -/
theorem CreditInv.sends (inv : CreditInv s log) {h : BdbmPcie} {beats : List RxBeat}
    (hostBeats : ∀ b ∈ beats, b.sof_right = true ∧ HostBeat b.tlp)
    (credits : ∀ c, (s.host.call ≠ .closed → c = s.host.io_wreq - s.host.io_wbudget) →
      h.call ≠ .closed →
      (beats.map RxBeat.tlp).foldl credit c = h.io_wreq - h.io_wbudget)
    (waiting : ∀ addr data, h.call = .waiting addr data →
      (config_buffer_size ≤ addr.toNat ∧ addr.toNat < bar0_size) ∧ h.io_wbudget = 0#32)
    : CreditInv (s.sends (h, beats)) { log with issued := log.issued + userWrites beats } := by
  have inFlight : (s.sends (h, beats)).inFlight = s.inFlight ++ beats.map RxBeat.tlp := by
    simp [HostSystem.inFlight, HostSystem.sends]
  constructor
  case aligned => exact inv.aligned
  case idle => exact inv.idle
  case onWire =>
    intro b member
    rcases List.mem_append.mp member with member | member
    · exact inv.onWire b member
    · exact hostBeats b member
  case inTlpQ => exact inv.inTlpQ
  case inTlp2Q => exact inv.inTlp2Q
  case inTlp3Q => exact inv.inTlp3Q
  case waiting => exact waiting
  case credits =>
    intro opened
    rw [inFlight, List.foldl_append]
    exact credits _ inv.credits opened
  case undelivered =>
    have conserved := inv.undelivered
    have user : (beats.map RxBeat.tlp).countP isUserWrite = userWrites beats := by
      rw [List.countP_map]
      rfl
    rw [inFlight, List.countP_append, user]
    change log.issued + userWrites beats
      = log.delivered + (s.inFlight.countP isUserWrite + userWrites beats)
        + s.device.queuedWrites
    omega

/-- A store of the host is a beat of the host. -/
theorem hostBeat_hostWrite (addr data : BitVec 32)
    : ∀ b ∈ [hostWrite addr data], b.sof_right = true ∧ HostBeat b.tlp := by
  intro b member
  rw [List.mem_singleton] at member
  subst member
  exact ⟨by simp [hostWrite, RxBeat.sof_right, RxBeat.sof_present, singleBeat],
    .inl (isWrite_hostWrite addr data)⟩

/-- The load of the emit counter is a beat of the host. -/
theorem hostBeat_emitRead : ∀ b ∈ [emitRead], b.sof_right = true ∧ HostBeat b.tlp := by
  intro b member
  rw [List.mem_singleton] at member
  subst member
  exact ⟨by decide, .inr rfl⟩

/-- The load of the emit counter moves no credit. -/
theorem credit_emitRead (c : BitVec 32) : credit c emitRead.tlp = c := by
  simp [credit, isReset, isUserWrite, emitRead_fields.2.1]

/-- A store to the user region moves one credit. -/
theorem credit_hostWrite {addr data : BitVec 32} (user : config_buffer_size ≤ addr.toNat)
    (inside : addr.toNat < bar0_size) (c : BitVec 32)
    : credit c (hostWrite addr data).tlp = c + 1#32 := by
  have kind : isUserWrite (hostWrite addr data).tlp = true
      ∧ isReset (hostWrite addr data).tlp = false := hostWrite_user user inside
  simp [credit, kind.1, kind.2]

/-- `Init_Pcie` starts over, behind everything in flight. -/
theorem CreditInv.init_pcie (inv : CreditInv s log)
    : CreditInv (s.sends s.host.init_pcie)
        { log with issued := log.issued + userWrites s.host.init_pcie.2 } := by
  refine inv.sends (hostBeat_hostWrite _ _) ?_ ?_
  · intro c _ _
    simp [credit, hostWrite_reset.1]
  · intro addr data waiting
    cases waiting

/-- A call of `writeWord` spends a credit with its store, or asks for the emit counter. -/
theorem CreditInv.writeWord (inv : CreditInv s log) (idle : s.host.call = .idle)
    {addr data : BitVec 32} (user : config_buffer_size ≤ addr.toNat)
    (inside : addr.toNat < bar0_size)
    : CreditInv (s.sends (s.host.writeWord addr data))
        { log with issued := log.issued + userWrites (s.host.writeWord addr data).2 } := by
  have opened : s.host.call ≠ .closed := by simp [idle]
  unfold BdbmPcie.writeWord
  split
  next budget =>
    refine inv.sends (hostBeat_hostWrite _ _) ?_ ?_
    · intro c sum _
      simp only [List.map_cons, List.map_nil, List.foldl_cons, List.foldl_nil,
        credit_hostWrite user inside, sum opened]
      grind
    · intro addr data waiting
      rw [idle] at waiting
      cases waiting
  next budget =>
    have empty : s.host.io_wbudget = 0#32 := by bv_omega
    refine inv.sends hostBeat_emitRead ?_ ?_
    · intro c sum _
      simp only [List.map_cons, List.map_nil, List.foldl_cons, List.foldl_nil,
        credit_emitRead, sum opened]
    · rintro _ _ ⟨⟩
      exact ⟨⟨user, inside⟩, empty⟩

/-- With the emit counter loaded, `writeWord` refills its budget by what it adds to the
requests, and spends one credit; or it asks again.
-/
theorem CreditInv.loaded (inv : CreditInv s log) {addr data : BitVec 32}
    (waiting : s.host.call = .waiting addr data) (io_wemit : BitVec 32)
    : CreditInv (s.sends (s.host.loaded addr data io_wemit))
        { log with
          issued := log.issued + userWrites (s.host.loaded addr data io_wemit).2 } := by
  have opened : s.host.call ≠ .closed := by simp [waiting]
  obtain ⟨⟨user, inside⟩, empty⟩ := inv.waiting addr data waiting
  unfold BdbmPcie.loaded
  split
  next full =>
    refine inv.sends hostBeat_emitRead ?_ inv.waiting
    intro c sum _
    simp only [List.map_cons, List.map_nil, List.foldl_cons, List.foldl_nil,
      credit_emitRead, sum opened]
  next room =>
    refine inv.sends (hostBeat_hostWrite _ _) ?_ ?_
    · intro c sum _
      simp only [List.map_cons, List.map_nil, List.foldl_cons, List.foldl_nil,
        credit_hostWrite user inside, sum opened, empty]
      grind
    · rintro _ _ ⟨⟩

/-- A beat from the device is the completion of the host's load, or changes nothing. -/
theorem CreditInv.taken (inv : CreditInv s log) (beat : SendTLP)
    : CreditInv (s.sends (s.host.taken beat))
        { log with issued := log.issued + userWrites (s.host.taken beat).2 } := by
  have same : CreditInv (s.sends (s.host, []))
      { log with issued := log.issued + userWrites [] } :=
    inv.sends (by simp) (fun c sum opened => sum opened) inv.waiting
  unfold BdbmPcie.taken
  split
  next addr data waiting =>
    split
    next => exact inv.loaded waiting _
    next => exact same
  next => exact same

/-- An event of the device that moves TLPs of the host, and the writes they make, along its
queues keeps the credits; so does one that touches neither.
-/
theorem CreditInv.moved (inv : CreditInv s log) {device : PcieCtrl} {wire : List RxBeat}
    {log' : CreditLog}
    (aligned : device.rx.realign.Aligned) (idle : device.rx.completionRecvLength = 0#10)
    (onWire : ∀ b ∈ wire, b.sof_right = true ∧ HostBeat b.tlp)
    (inTlpQ : ∀ tlp ∈ device.rx.tlpQ.items, HostBeat tlp)
    (inTlp2Q : ∀ tlp ∈ device.rx.tlp2Q.items, isWrite (tlpType tlp) = true)
    (inTlp3Q : ∀ tlp ∈ device.rx.tlp3Q.items, isWrite (tlpType tlp) = true)
    (credits : ({ s with wire, device }.inFlight).foldl credit
        (device.io.userWriteEmit + BitVec.ofNat 32 device.queuedWrites)
      = s.inFlight.foldl credit
          (s.device.io.userWriteEmit + BitVec.ofNat 32 s.device.queuedWrites))
    (issued : log'.issued = log.issued)
    (undelivered : log'.delivered
        + ({ s with wire, device }.inFlight).countP isUserWrite + device.queuedWrites
      = log.delivered + s.inFlight.countP isUserWrite + s.device.queuedWrites)
    : CreditInv { s with wire, device } log' where
  aligned := aligned
  idle := idle
  onWire := onWire
  inTlpQ := inTlpQ
  inTlp2Q := inTlp2Q
  inTlp3Q := inTlp3Q
  waiting := inv.waiting
  credits := fun opened => credits.trans (inv.credits opened)
  undelivered := by
    rw [issued, inv.undelivered, undelivered]

/-- The arrival of a beat at the device. -/
theorem CreditInv.receive (inv : CreditInv s log) (fires : s.step .receive = some s')
    : CreditInv s' log := by
  simp only [HostSystem.step] at fires
  split at fires
  next => cases fires
  next b wire arrived =>
    obtain ⟨device, fired, rfl⟩ := Option.map_eq_some_iff.mp fires
    obtain ⟨sof, beat⟩ := inv.onWire b (by rw [arrived]; exact List.mem_cons_self)
    obtain ⟨aligned, passed⟩ := Realign.next_right (r := s.device.rx.realign) sof
    rcases PcieCtrl.recvTLP_cases fired with ⟨none, rfl⟩
      | ⟨tlp, keep, tlpQ, tlpKeepQ, some, put, -, rfl⟩
    · rw [none] at passed
      cases passed
    · rw [some] at passed
      simp only [Option.map_some, Option.some.injEq] at passed
      subst passed
      refine inv.moved aligned inv.idle ?_ ?_ inv.inTlp2Q inv.inTlp3Q ?_ rfl ?_
      · intro b' member
        exact inv.onWire b' (by rw [arrived]; exact List.mem_cons_of_mem _ member)
      · intro tlp member
        simp only [put, List.mem_append, List.mem_singleton] at member
        rcases member with member | rfl
        · exact inv.inTlpQ tlp member
        · exact beat
      · simp [HostSystem.inFlight, PcieCtrl.queuedWrites, put, arrived]
      · simp [HostSystem.inFlight, PcieCtrl.queuedWrites, put, arrived]

/-- `filterStatReadTLP` answers the host's loads and passes its writes on. -/
theorem CreditInv.filterStatReadTLP (inv : CreditInv s log) {device : PcieCtrl}
    (fires : s.device.filterStatReadTLP = some device)
    : CreditInv { s with device } log := by
  obtain ⟨-, tlp, tlpQ, keep, tlpKeepQ, taken, -, branch⟩ :=
    PcieCtrl.filterStatReadTLP_cases fires
  have beat := inv.inTlpQ tlp (by rw [taken]; exact List.mem_cons_self)
  have rest : ∀ tlp ∈ tlpQ.items, HostBeat tlp :=
    fun tlp member => inv.inTlpQ tlp (by rw [taken]; exact List.mem_cons_of_mem _ member)
  rcases branch with ⟨data, sendTLPm, read, -, -, rfl⟩
    | ⟨tlp2Q, status, other, put, rfl⟩ | ⟨wordQ, burstQ, notRead, completion, -, -, rfl⟩
  · rcases beat with write | rfl
    · rw [(isWrite_excludes write).1] at read
      cases read
    · have load : isUserWrite emitRead.tlp = false := by decide
      refine inv.moved inv.aligned inv.idle inv.onWire rest inv.inTlp2Q inv.inTlp3Q ?_ rfl ?_
      · simp [HostSystem.inFlight, PcieCtrl.queuedWrites, taken, credit_emitRead]
      · simp [HostSystem.inFlight, PcieCtrl.queuedWrites, taken, load]
  · rcases beat with write | rfl
    · refine inv.moved inv.aligned inv.idle inv.onWire rest ?_ inv.inTlp3Q ?_ rfl ?_
      · intro tlp' member
        simp only [put, List.mem_append, List.mem_singleton] at member
        rcases member with member | rfl
        · exact inv.inTlp2Q tlp' member
        · exact write
      · simp [HostSystem.inFlight, PcieCtrl.queuedWrites, taken, put]
      · simp [HostSystem.inFlight, PcieCtrl.queuedWrites, taken, put]
    · have none := status emitRead_fields.1
      rw [statusRegister_emitRead] at none
      cases none
  · rcases beat with write | rfl
    · rw [(isWrite_excludes write).2] at completion
      cases completion
    · exact absurd emitRead_fields.1 notRead

/-- `procTLP` passes the host's writes on to `procIOWrite`. -/
theorem CreditInv.procTLP (inv : CreditInv s log) {device : PcieCtrl}
    (fires : s.device.procTLP = some device)
    : CreditInv { s with device } log := by
  obtain ⟨-, tlp, tlp2Q, taken, branch⟩ := PcieCtrl.procTLP_cases fires
  have write := inv.inTlp2Q tlp (by rw [taken]; exact List.mem_cons_self)
  have rest : ∀ tlp ∈ tlp2Q.items, isWrite (tlpType tlp) = true :=
    fun tlp member => inv.inTlp2Q tlp (by rw [taken]; exact List.mem_cons_of_mem _ member)
  rcases branch with ⟨_, _, read, -, -, -, rfl⟩ | ⟨_, read, -, -, rfl⟩
    | ⟨tlp3Q, -, -, put, rfl⟩ | ⟨-, notWrite, rfl⟩
  · rw [(isWrite_excludes write).1] at read
    cases read
  · rw [(isWrite_excludes write).1] at read
    cases read
  · refine inv.moved inv.aligned inv.idle inv.onWire inv.inTlpQ rest ?_ ?_ rfl ?_
    · intro tlp' member
      simp only [put, List.mem_append, List.mem_singleton] at member
      rcases member with member | rfl
      · exact inv.inTlp3Q tlp' member
      · exact write
    · simp [HostSystem.inFlight, PcieCtrl.queuedWrites, taken, put]
    · simp [HostSystem.inFlight, PcieCtrl.queuedWrites, taken, put]
  · exact absurd write notWrite

/-- `procIOWrite` acts on the oldest write: a reset on a drained device, a user write, or
one to the configuration buffer.
-/
theorem CreditInv.procIOWrite (inv : CreditInv s log) {device : PcieCtrl}
    (safe : CreditSafe s (.device .procIOWrite))
    (fires : s.device.procIOWrite = some device)
    : CreditInv { s with device } log := by
  obtain ⟨tlp, tlp3Q, sendTLPm, taken, -, branch⟩ := PcieCtrl.procIOWrite_cases fires
  have write := inv.inTlp3Q tlp (by rw [taken]; exact List.mem_cons_self)
  have rest : ∀ tlp ∈ tlp3Q.items, isWrite (tlpType tlp) = true :=
    fun tlp member => inv.inTlp3Q tlp (by rw [taken]; exact List.mem_cons_of_mem _ member)
  have inFlight (tlp3Q : Fifo (BitVec 128) 2)
      (taken : s.device.rx.tlp3Q.items = tlp :: tlp3Q.items)
      : s.inFlight = tlp :: (tlp3Q.items ++ s.device.rx.tlp2Q.items ++ s.device.rx.tlpQ.items
        ++ s.wire.map RxBeat.tlp) := by
    simp [HostSystem.inFlight, taken]
  rcases branch with ⟨zero, rfl⟩ | ⟨nonzero, config, rfl⟩
    | ⟨nonzero, user, userWrite1Q, put, rfl⟩
  · have reset : isReset tlp = true := by simp [isReset, write, internalAddr, zero]
    have notUser : isUserWrite tlp = false := by
      simp [isUserWrite, write, internalAddr, zero, io_userspace_offset]
    have drained := safe rfl (by simp [taken, reset])
    refine inv.moved inv.aligned inv.idle inv.onWire inv.inTlpQ inv.inTlp2Q rest ?_ rfl ?_
    · rw [inFlight tlp3Q taken, List.foldl_cons, credit, if_pos reset]
      refine congrArg (fun c => List.foldl credit c _) ?_
      change 0#32 + BitVec.ofNat 32 s.device.queuedWrites = 0#32
      rw [drained]
      rfl
    · simp [HostSystem.inFlight, PcieCtrl.queuedWrites, taken, notUser]
  · have noReset : isReset tlp = false := by simp [isReset, internalAddr, nonzero]
    have notUser : isUserWrite tlp = false := by
      simp [isUserWrite, internalAddr, config]
    refine inv.moved inv.aligned inv.idle inv.onWire inv.inTlpQ inv.inTlp2Q rest ?_ rfl ?_
    · simp [HostSystem.inFlight, PcieCtrl.queuedWrites, taken, credit, noReset, notUser]
    · simp [HostSystem.inFlight, PcieCtrl.queuedWrites, taken, notUser]
  · have noReset : isReset tlp = false := by simp [isReset, internalAddr, nonzero]
    have isUser : isUserWrite tlp = true := by simp [isUserWrite, write, internalAddr, user]
    refine inv.moved inv.aligned inv.idle inv.onWire inv.inTlpQ inv.inTlp2Q rest ?_ rfl ?_
    · rw [inFlight tlp3Q taken, List.foldl_cons, credit, if_neg (by simp [noReset]),
        if_pos isUser]
      refine congrArg (fun c => List.foldl credit c _) ?_
      simp only [PcieCtrl.queuedWrites, put, List.length_append, List.length_singleton,
        BitVec.ofNat_add]
      grind
    · simp [HostSystem.inFlight, PcieCtrl.queuedWrites, taken, isUser, put]
      omega

/-- `dataReceive` counts what it delivers. -/
theorem CreditInv.dataReceive (inv : CreditInv s log) {device : PcieCtrl} {w : IOWrite}
    (fires : s.device.dataReceive = some (w, device))
    : CreditInv { s with device } { log with delivered := log.delivered + 1 } := by
  simp only [PcieCtrl.dataReceive, Option.bind_eq_bind, Option.pure_def,
    Fifo.bind_deq_eq_some, Option.some.injEq, Prod.mk.injEq] at fires
  obtain ⟨_, userWrite2Q, taken, -, rfl⟩ := fires
  refine inv.moved inv.aligned inv.idle inv.onWire inv.inTlpQ inv.inTlp2Q inv.inTlp3Q ?_ rfl ?_
  · refine congrArg (fun c => List.foldl credit c _) ?_
    simp only [PcieCtrl.queuedWrites, taken, List.length_cons, BitVec.ofNat_add]
    grind
  · simp [HostSystem.inFlight, PcieCtrl.queuedWrites, taken]
    omega

/-- A rule that leaves the receive queues alone and only moves user writes along. -/
theorem CreditInv.unrelated (inv : CreditInv s log) {device : PcieCtrl}
    (rx : device.rx = s.device.rx)
    (queuedWrites : device.queuedWrites = s.device.queuedWrites)
    (userWriteEmit : device.io.userWriteEmit = s.device.io.userWriteEmit)
    : CreditInv { s with device } log := by
  have inFlight : { s with device }.inFlight = s.inFlight := by
    simp [HostSystem.inFlight, rx]
  refine inv.moved (by rw [rx]; exact inv.aligned) (by rw [rx]; exact inv.idle) inv.onWire
    (by rw [rx]; exact inv.inTlpQ) (by rw [rx]; exact inv.inTlp2Q)
    (by rw [rx]; exact inv.inTlp3Q) ?_ rfl ?_
  · rw [inFlight, queuedWrites, userWriteEmit]
  · rw [inFlight, queuedWrites]

/-- A device event that writes neither the receive path nor the user's queues. -/
theorem CreditInv.other (inv : CreditInv s log) {e : Event} {device : PcieCtrl}
    (fires : s.device.step e = some device) (rx : .rx ∉ e.parts) (io : .io ∉ e.parts)
    : CreditInv { s with device } log := by
  have unchanged := step_unchanged fires
  refine inv.unrelated (unchanged.rx rx) ?_ ?_
  · simp [PcieCtrl.queuedWrites, unchanged.io io]
  · rw [unchanged.io io]

/-- A device event other than the arrival of a beat, the transmission of one, and a delivery.
Witness: the rules of the user's queues move what they take, the parser is never inside a
completion, and the others write elsewhere.
-/
theorem CreditInv.device (inv : CreditInv s log) {e : Event} {device : PcieCtrl}
    (safe : CreditSafe s (.device e)) (noBeat : ∀ b, e ≠ .recvTLP b)
    (noDelivery : e ≠ .dataReceive) (fires : s.device.step e = some device)
    : CreditInv { s with device } log := by
  cases e with
  | recvTLP b => exact absurd rfl (noBeat b)
  | dataReceive => exact absurd rfl noDelivery
  | filterStatReadTLP => exact inv.filterStatReadTLP fires
  | procTLP => exact inv.procTLP fires
  | procIOWrite => exact inv.procIOWrite safe fires
  | procCompletionTLP =>
      have busy := (PcieCtrl.procCompletionTLP_cases fires).1
      rw [inv.idle] at busy
      exact absurd busy (by decide)
  | relayUserWriteQ =>
      simp only [PcieCtrl.step, PcieCtrl.relayUserWriteQ, Option.bind_eq_bind,
        Option.pure_def, Fifo.bind_deq_eq_some, Fifo.bind_enq_eq_some,
        Option.some.injEq] at fires
      obtain ⟨w, userWrite1Q, taken, userWriteQ, _, put, rfl⟩ := fires
      refine inv.unrelated rfl ?_ rfl
      simp only [PcieCtrl.queuedWrites, taken, put, List.length_cons, List.length_append,
        List.length_nil]
      omega
  | relayUserWrite2Q =>
      simp only [PcieCtrl.step, PcieCtrl.relayUserWrite2Q, Option.bind_eq_bind,
        Option.pure_def, Fifo.bind_deq_eq_some, Fifo.bind_enq_eq_some,
        Option.some.injEq] at fires
      obtain ⟨w, userWriteQ, taken, userWrite2Q, _, put, rfl⟩ := fires
      refine inv.unrelated rfl ?_ rfl
      simp only [PcieCtrl.queuedWrites, taken, put, List.length_cons, List.length_append,
        List.length_nil]
      omega
  | relayUserReadQ0 =>
      simp only [PcieCtrl.step, PcieCtrl.relayUserReadQ0, Option.bind_eq_bind,
        Option.pure_def, Fifo.bind_deq_eq_some, Fifo.bind_enq_eq_some,
        Option.some.injEq] at fires
      obtain ⟨_, _, -, _, _, -, rfl⟩ := fires
      exact inv.unrelated rfl rfl rfl
  | relayUserReadQ1 =>
      simp only [PcieCtrl.step, PcieCtrl.relayUserReadQ1, Option.bind_eq_bind,
        Option.pure_def, Fifo.bind_deq_eq_some, Fifo.bind_enq_eq_some,
        Option.some.injEq] at fires
      obtain ⟨_, _, -, _, _, -, rfl⟩ := fires
      exact inv.unrelated rfl rfl rfl
  | completeIORead =>
      simp only [PcieCtrl.step, PcieCtrl.completeIORead, Option.bind_eq_bind,
        Option.pure_def, Fifo.bind_deq_eq_some, Bram2.bind_getA_eq_some] at fires
      obtain ⟨_, _, -, _, _, -, fires⟩ := fires
      obtain ⟨_, -, ⟨⟩⟩ := Option.bind_eq_some_iff.mp fires
      exact inv.unrelated rfl rfl rfl
  | dataReq =>
      simp only [PcieCtrl.step, PcieCtrl.dataReq, Option.bind_eq_bind, Option.pure_def,
        Option.map_eq_some_iff, Fifo.bind_deq_eq_some, Option.some.injEq] at fires
      obtain ⟨_, ⟨_, _, -, rfl⟩, rfl⟩ := fires
      exact inv.unrelated rfl rfl rfl
  | _ => exact inv.other fires (by simp [Event.parts]) (by simp [Event.parts])

/-- A device event that neither receives nor transmits concerns the device alone. -/
theorem HostSystem.step_device {e : Event} (noBeat : ∀ b, e ≠ .recvTLP b)
    (noSend : e ≠ .relayTLP)
    : s.step (.device e) = (s.device.step e).map ({ s with device := · }) := by
  cases e with
  | recvTLP b => exact absurd rfl (noBeat b)
  | relayTLP => exact absurd rfl noSend
  | _ => rfl

/-- A device event that neither transmits nor delivers leaves the history alone. -/
theorem CreditLog.record_device {e : Event} (noSend : e ≠ .relayTLP)
    (noDelivery : e ≠ .dataReceive)
    : log.record s (.device e) = log := by
  cases e with
  | relayTLP => exact absurd rfl noSend
  | dataReceive => exact absurd rfl noDelivery
  | _ => rfl

/-- Every safe event keeps the credits. -/
theorem CreditInv.step {e : HostEvent} (inv : CreditInv s log) (safe : CreditSafe s e)
    (fires : s.step e = some s')
    : CreditInv s' (log.record s e) := by
  cases e with
  | initPcie =>
      simp only [HostSystem.step] at fires
      split at fires
      next => cases fires
      next =>
        cases fires
        exact inv.init_pcie
  | writeWord addr data =>
      simp only [HostSystem.step] at fires
      split at fires
      next idle =>
        cases fires
        exact inv.writeWord idle safe.1 safe.2
      next => cases fires
  | receive => exact inv.receive fires
  | device e =>
      by_cases beat : ∃ b, e = .recvTLP b
      · obtain ⟨b, rfl⟩ := beat
        cases fires
      by_cases sent : e = .relayTLP
      · subst sent
        simp only [HostSystem.step, Option.map_eq_some_iff] at fires
        obtain ⟨⟨tlp, device⟩, sent, rfl⟩ := fires
        have fired : s.device.step .relayTLP = some device := by
          simp only [PcieCtrl.step, sent, Option.map_some]
        have moved := inv.other fired (by decide) (by decide)
        have same : log.record s (.device .relayTLP)
            = { log with issued := log.issued + userWrites (s.host.taken tlp).2 } := by
          unfold CreditLog.record
          simp only [sent]
        rw [same]
        exact moved.taken tlp
      by_cases delivered : e = .dataReceive
      · subst delivered
        simp only [HostSystem.step, PcieCtrl.step, Option.map_eq_some_iff] at fires
        obtain ⟨_, ⟨⟨w, device⟩, delivered, rfl⟩, rfl⟩ := fires
        exact inv.dataReceive delivered
      have noBeat : ∀ b, e ≠ .recvTLP b := fun b same => beat ⟨b, same⟩
      rw [HostSystem.step_device noBeat sent] at fires
      obtain ⟨device, fired, rfl⟩ := Option.map_eq_some_iff.mp fires
      rw [CreditLog.record_device sent delivered]
      exact inv.device safe noBeat delivered fired

end Step

-----------------------------------------------------------------------------------------
-- Runs
-----------------------------------------------------------------------------------------

/-- Between two host calls, once no reset is under way, the host's counters and the device's
differ by the user writes that are issued and not delivered; with none, the host has its full
credit, and an empty budget lets the loop of `writeWord` exit.
-/
def CreditsAgree (s : HostSystem) (log : CreditLog) : Prop :=
  s.host.call = .idle → s.resetPending = false →
    s.host.io_wreq - s.host.io_wbudget - s.device.io.userWriteEmit
        = BitVec.ofNat 32 (log.issued - log.delivered)
      ∧ (log.issued = log.delivered → s.host.io_wbudget = 0#32 →
        s.host.io_wreq - s.device.io.userWriteEmit < io_queue_size / 2#32)

/-- In every run whose writes go to the user region and whose resets find the device drained,
host and device agree.
-/
theorem credits_agree {p : PowerUp} {io_wreq io_wbudget : BitVec 32}
    {s : HostSystem × CreditLog}
    (run : Reach creditStep (fun s e => CreditSafe s.1 e)
      (.reset p io_wreq io_wbudget, { issued := 0, delivered := 0 }) s)
    : CreditsAgree s.1 s.2 := by
  have inv : CreditInv s.1 s.2 := by
    refine run.invariant (P := fun s => CreditInv s.1 s.2) ?_ ?_
    · refine ⟨Realign.aligned_reset, rfl, ?_, ?_, ?_, ?_, ?_, ?_, rfl⟩
      · intro b member
        cases member
      · intro tlp member
        cases member
      · intro tlp member
        cases member
      · intro tlp member
        cases member
      · intro addr data waiting
        cases waiting
      · intro opened
        exact absurd rfl opened
    · intro s e s' inv safe fires
      obtain ⟨fires, same⟩ := traced_eq_some.mp fires
      rw [same]
      exact inv.step safe fires
  intro idle noReset
  have credits := inv.credits (by simp [idle])
  rw [foldl_credit _ _ noReset] at credits
  have undelivered : s.2.issued - s.2.delivered
      = s.1.inFlight.countP isUserWrite + s.1.device.queuedWrites := by
    have conserved := inv.undelivered
    omega
  have balance : s.1.host.io_wreq - s.1.host.io_wbudget - s.1.device.io.userWriteEmit
      = BitVec.ofNat 32 (s.2.issued - s.2.delivered) := by
    rw [undelivered, ← credits, BitVec.ofNat_add]
    grind
  refine ⟨balance, ?_⟩
  intro drained empty
  rw [drained, Nat.sub_self, empty] at balance
  rw [show s.1.host.io_wreq - s.1.device.io.userWriteEmit = 0#32 by grind]
  decide

/-- `Init_Pcie` until its reset has taken effect. -/
def initRun : List HostEvent :=
  [.initPcie, .receive, .device .filterStatReadTLP, .device .procTLP, .device .procIOWrite]

/-- The load of the emit counter, through the device and back to the host. -/
def loadRun : List HostEvent :=
  [.receive, .device .filterStatReadTLP,
    .device (.sendTLPmRule (.inside false (.inside false .merge))),
    .device (.sendTLPmRule (.inside false (.ma1 false))),
    .device (.sendTLPmRule (.inside false .merge)), .device (.sendTLPmRule (.ma1 false)),
    .device (.sendTLPmRule .merge), .device .relayTLPm, .device .relayTLP]

/-- The first user write of a run: issued, and waiting in the device. -/
def userWriteRun : List HostEvent :=
  initRun ++ .writeWord 16384 7 :: loadRun
    ++ [.receive, .device .filterStatReadTLP, .device .procTLP, .device .procIOWrite]

/-- Before `Init_Pcie`, with no user write issued. -/
def creditReset : HostSystem × CreditLog :=
  (.reset default 0 0, { issued := 0, delivered := 0 })

/-- After one user write that waits in the device, host and device differ by one. -/
theorem credits_agree_userWriteRun
    : ∃ s : HostSystem × CreditLog,
        Reach creditStep (fun s e => CreditSafe s.1 e) creditReset s
        ∧ s.2.issued = 1 ∧ s.2.delivered = 0 ∧ CreditsAgree s.1 s.2 := by
  obtain ⟨s, run, counts⟩ := exec_reach_map creditStep (fun s e => CreditSafe s.1 e)
    creditReset userWriteRun (fun s => (s.2.issued, s.2.delivered)) (1, 0) (by decide +kernel)
  simp only [Prod.mk.injEq] at counts
  exact ⟨s, run, counts.1, counts.2, credits_agree run⟩

/-- The balance of credits, and the writes it should equal, once a schedule has run. -/
def balanceAfter (es : List HostEvent) : Option (WriteCall × Bool × BitVec 32 × Nat) :=
  (exec creditStep creditReset es).map (fun s =>
    (s.1.host.call, s.1.resetPending,
      s.1.host.io_wreq - s.1.host.io_wbudget - s.1.device.io.userWriteEmit,
      s.2.issued - s.2.delivered))

/-- A write to the configuration region spends a credit that the device never counts, and
`Init_Pcie` forgets a user write that the device still holds: the balance is wrong.
-/
theorem credits_leak
    : (∃ s, exec creditStep creditReset (initRun ++ .writeWord 64 7 :: loadRun) = some s
        ∧ ¬CreditsAgree s.1 s.2)
      ∧ ∃ s, exec creditStep creditReset (userWriteRun ++ initRun) = some s
        ∧ ¬CreditsAgree s.1 s.2 := by
  have config : balanceAfter (initRun ++ .writeWord 64 7 :: loadRun)
      = some (.idle, false, 1, 0) := by decide +kernel
  have again : balanceAfter (userWriteRun ++ initRun) = some (.idle, false, 0, 1) := by
    decide +kernel
  obtain ⟨s, ran, seen⟩ := Option.map_eq_some_iff.mp config
  obtain ⟨s', ran', seen'⟩ := Option.map_eq_some_iff.mp again
  simp only [Prod.mk.injEq] at seen seen'
  refine ⟨⟨s, ran, fun agree => ?_⟩, s', ran', fun agree => ?_⟩
  · have balance := (agree seen.1 seen.2.1).1
    rw [seen.2.2.1, seen.2.2.2] at balance
    exact absurd balance (by decide)
  · have balance := (agree seen'.1 seen'.2.1).1
    rw [seen'.2.2.1, seen'.2.2.2] at balance
    exact absurd balance (by decide)

end BluespecPcie

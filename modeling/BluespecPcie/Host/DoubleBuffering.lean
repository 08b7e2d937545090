import BluespecPcie.Host.CopyFromFPGA

/-! Runs of calls over any progress of the device. -/

namespace BluespecPcie

open Bluespec

-----------------------------------------------------------------------------------------
-- Runs
-----------------------------------------------------------------------------------------

/-- What holds between any two events. -/
inductive CopyInv (s : CopySystem) (log : CopyLog) : Prop
  | idle (thread : s.thread = .idle) (settled : s.Settled)
    (leaves : ∀ call, log.call = some call → call.Leaves s) (uncopied : log.uncopied = [])
  | writing {call : CopyCall} {point : CopyPoint} {l : CopyLocals} {done : Nat}
    (thread : s.thread = .CopyToFPGA point l) (last : log.call = some call)
    (inv : call.Writing s point l done) (uncopied : log.uncopied = [])
  | fetching {call : CopyCall} {point : CopyPoint} {l : CopyLocals} {done : Nat}
    (thread : s.thread = .CopyFromFPGA point l) (last : log.call = some call)
    (inv : call.Fetching s point l done)
    (uncopied : log.uncopied = halvesFrom (l.i - 1) (point.issued l.i))

section Runs

variable {s s' : CopySystem} {log : CopyLog}

/-- The object after construction. -/
theorem copyInv_construct (p : CopyStart) : CopyInv (.construct p) ⟨none, []⟩ := by
  refine .idle rfl ⟨rfl, ?_, ?_⟩ nofun rfl
  · funext toHost
    cases toHost <;> rfl
  · intro toHost
    cases toHost <;> exact Nat.mod_lt _ (by decide)

/-- A call of `CopyToFPGA`. -/
theorem CopyInv.callTo {offset bytes : Nat} {buffer : ByteMap} (inv : CopyInv s log)
    (inPages : (CopyEvent.CopyToFPGA offset buffer bytes).InPages)
    (fires : s.step (.CopyToFPGA offset buffer bytes) = some s')
    : CopyInv s' (log.record s (.CopyToFPGA offset buffer bytes)) := by
  cases inv with
  | idle thread settled leaves uncopied =>
      simp only [CopySystem.step, thread, Option.some.injEq] at fires
      subst fires
      let call : CopyCall := { toHost := false, offset, bytes, buffer, fpga := s.device.fpga }
      have pages : call.offset / 4096 + (call.bytes + 4095) / 4096 ≤ 2 ^ 32 := inPages
      have writing : call.Writing
          { s with buffer, thread := .CopyToFPGA .loop (.enter offset bytes) } .loop
          (.enter offset bytes) 0 := by
        refine ⟨?_, rfl, rfl, ?_, ?_, ?_⟩
        · exact .enter pages settled.cmds settled.counted settled.small rfl rfl
        · simp [CopyLocals.enter]
        · simp [CopyLocals.enter, call]
        · refine ⟨fun c _ below => absurd below (Nat.not_lt_zero c), ?_,
            fun j _ below => absurd below (by simp), fun _ _ => rfl⟩
          intro j cmd position
          simp [settled.cmds] at position
      exact .writing rfl rfl writing uncopied
  | writing thread => simp [CopySystem.step, thread] at fires
  | fetching thread => simp [CopySystem.step, thread] at fires

/-- A call of `CopyFromFPGA`. -/
theorem CopyInv.callFrom {offset bytes : Nat} {buffer : ByteMap} (inv : CopyInv s log)
    (inPages : (CopyEvent.CopyFromFPGA offset buffer bytes).InPages)
    (fires : s.step (.CopyFromFPGA offset buffer bytes) = some s')
    : CopyInv s' (log.record s (.CopyFromFPGA offset buffer bytes)) := by
  cases inv with
  | idle thread settled leaves uncopied =>
      simp only [CopySystem.step, thread, Option.some.injEq] at fires
      subst fires
      let call : CopyCall := { toHost := true, offset, bytes, buffer, fpga := s.device.fpga }
      have pages : call.offset / 4096 + (call.bytes + 4095) / 4096 ≤ 2 ^ 32 := inPages
      have fetching : call.Fetching
          { s with buffer, thread := .CopyFromFPGA .loop (.enter offset bytes) } .loop
          (.enter offset bytes) 0 := by
        refine ⟨?_, rfl, ?_, ?_, fun more => absurd more (Nat.lt_irrefl 0), ?_⟩
        · exact .enter pages settled.cmds settled.counted settled.small rfl rfl
        · simp [CopyLocals.enter]
        · simp [CopyLocals.enter, call]
        · refine ⟨?_, fun c _ below => absurd below (Nat.not_lt_zero c),
            fun j below => absurd below (by simp [CopyLocals.enter]), rfl⟩
          intro j cmd position
          simp [settled.cmds] at position
      exact .fetching rfl rfl fetching uncopied
  | writing thread => simp [CopySystem.step, thread] at fires
  | fetching thread => simp [CopySystem.step, thread] at fires

/-- A step of `CopyToFPGA`. -/
theorem CopyInv.hostTo {call : CopyCall} {point : CopyPoint} {l : CopyLocals} {done : Nat}
    (thread : s.thread = .CopyToFPGA point l) (last : log.call = some call)
    (inv : call.Writing s point l done) (uncopied : log.uncopied = [])
    : CopyInv (s.CopyToFPGA point l) (log.record s .host) := by
  have none : s.copiesOut = none := by
    simp [CopySystem.copiesOut, thread]
  have same : log.record s .host = log := by
    simp [CopyLog.record, thread, none]
  rw [same]
  rcases inv.host thread with ⟨point', l', thread', inv'⟩ | ⟨idle, settled, leaves⟩
  · exact .writing thread' last inv' uncopied
  · refine .idle idle settled ?_ uncopied
    intro other returned
    rw [last] at returned
    cases returned
    exact leaves

/-- A step of `CopyFromFPGA` that goes on or returns. -/
theorem CopyInv.ofGoes {call : CopyCall} {s' : CopySystem} {log' : CopyLog}
    (last : log'.call = some call) (done : Nat)
    (goes : CopyCall.Fetching.Goes call s' done log'.uncopied)
    : CopyInv s' log' := by
  rcases goes with ⟨point', l', thread', inv', uncopied⟩ | ⟨idle, settled, leaves, uncopied⟩
  · exact .fetching thread' last inv' uncopied
  · refine .idle idle settled ?_ uncopied
    intro other returned
    rw [last] at returned
    cases returned
    exact leaves

/-- The place of a half. -/
theorem halfAt_mul (half : Nat) : halfAt (half * 524288) = half := by
  change half * 524288 / 524288 = half
  exact Nat.mul_div_cancel _ (by decide)

/-- A step that waits changes nothing. -/
theorem CopySystem.CopyFromFPGA_waiting {point : CopyPoint} {l : CopyLocals}
    (thread : s.thread = .CopyFromFPGA point l) (waiting : s.waiting = true)
    : s.CopyFromFPGA point l = s := by
  rw [CopySystem.waiting, thread] at waiting
  cases point with
  | poll => exact if_pos (of_decide_eq_true waiting)
  | last => exact if_pos (of_decide_eq_true waiting)
  | loop | hostArg | fpgaArg | command => cases waiting

/-- A step that copies nothing out and issues nothing is not recorded. -/
theorem CopyLog.record_same {point : CopyPoint} {l : CopyLocals}
    (thread : s.thread = .CopyFromFPGA point l) (notCommand : point ≠ .command)
    (out : s.copiesOut = none)
    : log.record s .host = log := by
  cases point <;> simp_all [CopyLog.record]

/-- A step that copies a half out. -/
theorem CopyLog.record_out {point : CopyPoint} {l : CopyLocals} {half : Nat}
    (thread : s.thread = .CopyFromFPGA point l) (notCommand : point ≠ .command)
    (out : s.copiesOut = some half)
    : log.record s .host = { log with uncopied := log.uncopied.erase half } := by
  cases point <;> simp_all [CopyLog.record]

/-- The wait of an iteration. -/
theorem CopyInv.hostPoll {call : CopyCall} {l : CopyLocals} {done : Nat}
    (thread : s.thread = .CopyFromFPGA .poll l) (last : log.call = some call)
    (inv : call.Fetching s .poll l done)
    (uncopied : log.uncopied = halvesFrom (l.i - 1) (l.i + 1))
    : CopyInv (s.CopyFromFPGA .poll l) (log.record s .host) := by
  by_cases waiting : s.waiting = true
  · have none : s.copiesOut = none := if_pos waiting
    rw [CopySystem.CopyFromFPGA_waiting thread waiting,
      CopyLog.record_same thread CopyPoint.noConfusion none]
    exact .fetching thread last inv uncopied
  · have ready : ¬s.userReadWord m_fpga_read_stat_off < size_t (s.m_read_done_total + l.i) := by
      intro less
      refine waiting ?_
      rw [CopySystem.waiting, thread]
      exact decide_eq_true less
    have reached := (not_congr (inv.reached inv.within)).mp ready
    cases index : l.i with
    | zero =>
        have none : s.copiesOut = none := by
          simp [CopySystem.copiesOut, thread, index]
        rw [CopyLog.record_same thread CopyPoint.noConfusion none]
        refine .ofGoes last done ?_
        rw [uncopied]
        exact inv.stepFirstPoll index ready
    | succ c =>
        have out : s.copiesOut = some (c % 2) := by
          simp only [CopySystem.copiesOut, waiting, thread, index, Bool.false_eq_true, if_false,
            CopyCall.otherHalf_eq, halfAt_mul]
          rfl
        rw [CopyLog.record_out thread CopyPoint.noConfusion out]
        refine .ofGoes last done ?_
        change CopyCall.Fetching.Goes call _ done (log.uncopied.erase (c % 2))
        rw [uncopied, index, Nat.succ_sub_one, halvesFrom_erase (by omega)]
        exact inv.stepLaterPoll index ready (by omega)

/-- The wait behind the loop. -/
theorem CopyInv.hostLast {call : CopyCall} {l : CopyLocals} {done : Nat}
    (thread : s.thread = .CopyFromFPGA .last l) (last : log.call = some call)
    (inv : call.Fetching s .last l done)
    (uncopied : log.uncopied = halvesFrom (l.i - 1) l.i)
    : CopyInv (s.CopyFromFPGA .last l) (log.record s .host) := by
  by_cases waiting : s.waiting = true
  · have none : s.copiesOut = none := if_pos waiting
    rw [CopySystem.CopyFromFPGA_waiting thread waiting,
      CopyLog.record_same thread CopyPoint.noConfusion none]
    exact .fetching thread last inv uncopied
  · have ready
        : ¬s.userReadWord m_fpga_read_stat_off < size_t (s.m_read_done_total + l.cnt) := by
      intro less
      refine waiting ?_
      rw [CopySystem.waiting, thread]
      exact decide_eq_true less
    have reached := (not_congr (inv.reached (Nat.le_of_eq inv.cnt))).mp ready
    have out : s.copiesOut
        = some (halfAt (if l.cnt % 2 = 0 then m_max_dma_bytes / 2 else 0)) := by
      simp only [CopySystem.copiesOut, waiting, thread, Bool.false_eq_true, if_false]
    rw [CopyLog.record_out thread CopyPoint.noConfusion out]
    refine .ofGoes last done ?_
    change CopyCall.Fetching.Goes call _ done (log.uncopied.erase _)
    have whole : l.i = l.cnt := (inv.toLocals.last rfl).trans inv.cnt.symm
    have emptied
        : log.uncopied.erase (halfAt (if l.cnt % 2 = 0 then m_max_dma_bytes / 2 else 0)) = [] := by
      rw [uncopied, whole]
      cases l.cnt with
      | zero => rfl
      | succ c =>
          rw [CopyCall.otherHalf_eq, halfAt_mul, Nat.succ_sub_one,
            halvesFrom_erase (Nat.lt_succ_self c), halvesFrom_self]
    rw [emptied]
    exact inv.stepLast ready reached

/-- A step of `CopyFromFPGA`. -/
theorem CopyInv.hostFrom {call : CopyCall} {point : CopyPoint} {l : CopyLocals} {done : Nat}
    (thread : s.thread = .CopyFromFPGA point l) (last : log.call = some call)
    (inv : call.Fetching s point l done)
    (uncopied : log.uncopied = halvesFrom (l.i - 1) (point.issued l.i))
    : CopyInv (s.CopyFromFPGA point l) (log.record s .host) := by
  have none (notCommand : point ≠ .command) (notPoll : point ≠ .poll) (notLast : point ≠ .last)
      : log.record s .host = log := by
    refine CopyLog.record_same thread notCommand ?_
    cases point <;> simp_all [CopySystem.copiesOut]
  cases point with
  | loop =>
      rw [none nofun nofun nofun]
      refine .ofGoes last done ?_
      rw [uncopied]
      exact inv.stepLoop
  | hostArg =>
      rw [none nofun nofun nofun]
      refine .ofGoes last done ?_
      rw [uncopied]
      exact inv.stepHostArg
  | fpgaArg =>
      rw [none nofun nofun nofun]
      refine .ofGoes last done ?_
      rw [uncopied]
      exact inv.stepFPGAArg
  | command =>
      have recorded : log.record s .host
          = { log with uncopied := log.uncopied ++ [halfAt l.bufoff] } := by
        simp [CopyLog.record, thread]
      rw [recorded]
      refine .ofGoes last done ?_
      change CopyCall.Fetching.Goes call _ done (log.uncopied ++ [halfAt l.bufoff])
      rw [inv.bufoff rfl, halfAt_mul, uncopied]
      exact inv.stepCommand
  | poll => exact CopyInv.hostPoll thread last inv uncopied
  | last => exact CopyInv.hostLast thread last inv uncopied

/-- The device moves bytes. -/
theorem CopyInv.move {j k n : Nat} (inv : CopyInv s log) (fires : s.move j k n = some s')
    : CopyInv s' log := by
  obtain ⟨cmd, moves⟩ := CopySystem.move_cases fires
  cases inv with
  | idle thread settled =>
      have found := moves.found
      rw [settled.cmds] at found
      simp at found
  | writing thread last inv uncopied =>
      exact .writing (moves.thread.trans thread) last (inv.move moves) uncopied
  | fetching thread last inv uncopied =>
      exact .fetching (moves.thread.trans thread) last (inv.move moves) uncopied

/-- The device counts a command done. -/
theorem CopyInv.counts {device : CopyDevice} (inv : CopyInv s log)
    (counts : s.device.done = some device) (noWrap : s.NoWrap .done)
    : CopyInv { s with device } log := by
  cases inv with
  | idle thread settled =>
      obtain ⟨cmd, rest, oldest, _⟩ := CopyDevice.done_cases counts
      rw [settled.cmds] at oldest
      cases oldest
  | writing thread last inv uncopied =>
      exact .writing thread last (inv.counts counts noWrap) uncopied
  | fetching thread last inv uncopied =>
      exact .fetching thread last (inv.counts counts noWrap) uncopied

/-- Every event keeps the invariant. -/
theorem CopyInv.step {e : CopyEvent} (inv : CopyInv s log) (inPages : e.InPages)
    (noWrap : s.NoWrap e) (fires : s.step e = some s')
    : CopyInv s' (log.record s e) := by
  cases e with
  | CopyToFPGA offset buffer bytes => exact inv.callTo inPages fires
  | CopyFromFPGA offset buffer bytes => exact inv.callFrom inPages fires
  | host =>
      change s.host = some s' at fires
      cases inv with
      | idle thread =>
          rw [CopySystem.host, thread] at fires
          cases fires
      | writing thread last inv uncopied =>
          rw [CopySystem.host, thread] at fires
          cases fires
          exact CopyInv.hostTo thread last inv uncopied
      | fetching thread last inv uncopied =>
          rw [CopySystem.host, thread] at fires
          cases fires
          exact CopyInv.hostFrom thread last inv uncopied
  | move j k n => exact inv.move fires
  | done =>
      obtain ⟨device, counts, rfl⟩ := Option.map_eq_some_iff.mp fires
      exact inv.counts counts noWrap

-----------------------------------------------------------------------------------------
-- Halves and returns
-----------------------------------------------------------------------------------------

/-- A half of an issued chunk that is not copied out. -/
theorem mem_halvesFrom {copied issued half : Nat} (member : half ∈ halvesFrom copied issued)
    : ∃ c, copied ≤ c ∧ c < issued ∧ half = c % 2 := by
  obtain ⟨c, inside, rfl⟩ := List.mem_map.mp member
  have bounds := List.mem_range'_1.mp inside
  exact ⟨c, bounds.1, by omega, rfl⟩

/-- The half of the thread's next fill or command is of no command that waits, and its data
is copied out.
-/
theorem CopyInv.exclusive (inv : CopyInv s log) {half : Nat} (touches : s.touches = some half)
    : (∀ cmd ∈ s.device.cmds, cmd.half ≠ half) ∧ half ∉ log.uncopied := by
  cases inv with
  | idle thread =>
      rw [CopySystem.touches, thread] at touches
      cases touches
  | @writing call point l done thread last inv uncopied =>
      rw [CopySystem.touches, thread] at touches
      rw [uncopied]
      cases point with
      | loop =>
          by_cases more : l.i < l.cnt
          · simp only [more, if_true, Option.some.injEq] at touches
            have bufoff : l.chunk.bufoff = l.i % 2 * 524288 :=
              (inv.toLocals.choose more).bufoff rfl
            rw [bufoff, halfAt_mul] at touches
            exact ⟨touches ▸ inv.otherHalf rfl, List.not_mem_nil⟩
          · simp only [more, if_false] at touches
            cases touches
      | command =>
          simp only [Option.some.injEq] at touches
          rw [inv.bufoff rfl, halfAt_mul] at touches
          exact ⟨touches ▸ inv.otherHalf rfl, List.not_mem_nil⟩
      | hostArg | fpgaArg | poll | last => cases touches
  | @fetching call point l done thread last inv uncopied =>
      rw [CopySystem.touches, thread] at touches
      cases point with
      | command =>
          simp only [Option.some.injEq] at touches
          rw [inv.bufoff rfl, halfAt_mul] at touches
          refine ⟨touches ▸ inv.otherHalf rfl, ?_⟩
          intro member
          rw [uncopied] at member
          obtain ⟨c, from_, below, same⟩ := mem_halvesFrom member
          change c < l.i at below
          omega
      | loop | hostArg | fpgaArg | poll | last => cases touches

/-- Without commands at the device, all issued chunks are done. -/
theorem CopyCall.Looping.caughtUp {call : CopyCall} {point : CopyPoint} {l : CopyLocals}
    {done : Nat} (inv : call.Looping s point l done) (idle : s.device.cmds = [])
    : point.issued l.i ≤ done := by
  have length := inv.queued.length
  rw [idle, List.length_nil] at length
  omega

/-- A thread that waits has a command at the device. -/
theorem CopyInv.returns (inv : CopyInv s log) (idle : s.device.cmds = [])
    : s.waiting = false := by
  cases inv with
  | idle thread => rw [CopySystem.waiting, thread]
  | @writing call point l done thread last inv uncopied =>
      have caughtUp := inv.caughtUp idle
      rw [CopySystem.waiting, thread]
      cases point with
      | poll =>
          refine decide_eq_false ?_
          rw [inv.reached inv.within]
          exact Nat.not_lt_of_le (Nat.le_of_succ_le caughtUp)
      | last =>
          refine decide_eq_false ?_
          rw [inv.reached (Nat.le_of_eq inv.cnt), inv.cnt, ← inv.last rfl]
          exact Nat.not_lt_of_le caughtUp
      | loop | hostArg | fpgaArg | command => rfl
  | @fetching call point l done thread last inv uncopied =>
      have caughtUp := inv.caughtUp idle
      rw [CopySystem.waiting, thread]
      cases point with
      | poll =>
          refine decide_eq_false ?_
          rw [inv.reached inv.within]
          exact Nat.not_lt_of_le (Nat.le_of_succ_le caughtUp)
      | last =>
          refine decide_eq_false ?_
          rw [inv.reached (Nat.le_of_eq inv.cnt), inv.cnt, ← inv.last rfl]
          exact Nat.not_lt_of_le caughtUp
      | loop | hostArg | fpgaArg | command => rfl

/-- A returned call leaves what it has to. -/
theorem CopyInv.leaves (inv : CopyInv s log) (thread : s.thread = .idle) {call : CopyCall}
    (last : log.call = some call)
    : call.Leaves s := by
  cases inv with
  | idle _ _ leaves => exact leaves call last
  | writing other => cases thread.symm.trans other
  | fetching other => cases thread.symm.trans other

/-- Copies of pages with 32-bit numbers are correct under any progress of the device. -/
theorem copies_correct (p : CopyStart) (s : CopySystem × CopyLog)
    (reach : Reach copyStep (fun s e => e.InPages ∧ s.1.NoWrap e) (copyStart p) s)
    : s.2.Copies s.1 := by
  have inv : CopyInv s.1 s.2 := by
    refine reach.invariant (P := fun s => CopyInv s.1 s.2) (copyInv_construct p) ?_
    intro s e s' inv allowed fires
    obtain ⟨fired, recorded⟩ := traced_eq_some.mp fires
    rw [recorded]
    exact inv.step allowed.1 allowed.2 fired
  exact ⟨fun idle call last => inv.leaves idle last, fun half => inv.exclusive, inv.returns⟩

end Runs

-----------------------------------------------------------------------------------------
-- A page there and back, and a page beyond the registers
-----------------------------------------------------------------------------------------

instance CopyEvent.decidableInPages (e : CopyEvent) : Decidable e.InPages := by
  apply CopyEvent.casesOn (motive := fun e => Decidable e.InPages) e <;> intros <;>
    unfold CopyEvent.InPages <;> infer_instance

instance CopyEvent.decidableSized (e : CopyEvent) : Decidable e.Sized := by
  apply CopyEvent.casesOn (motive := fun e => Decidable e.Sized) e <;> intros <;>
    unfold CopyEvent.Sized <;> infer_instance

/-- The events of a call of one chunk behind its start: the loop, the registers, the waits, the
device, and the return.
-/
def oneChunk : List CopyEvent :=
  [.host, .host, .host, .host, .host, .host, .move 0 0 4096, .done, .host]

/-- The events of a call of two chunks behind its start: the second one is handed to the device
before the first one is done.
-/
def twoChunks : List (Option CopyEvent) :=
  List.replicate 9 (some .host) ++ [none, some .host, some .host, none, some .host]

/-- The first half of the DMA buffer full of sixes, and five sevens behind it. -/
def sixesAndSevens : ByteMap := fun x => if x < 524288 then 6 else 7

/-- Five bytes more than half a DMA buffer go to the FPGA and come back, the last five through
the second half.
-/
theorem copies_correct_twoChunks
    : ∃ s, Reach copyStep (fun s e => e.InPages ∧ s.1.NoWrap e) (copyStart default) s
        ∧ s.1.thread.isIdle = true
        ∧ [524287, 524288, 524292, 524293].map s.1.device.fpga = [6, 7, 7, 0xff]
        ∧ [524287, 524288, 524292].map s.1.buffer = [6, 7, 7]
        ∧ s.2.Copies s.1 := by
  obtain ⟨s, moves, seen⟩ := exec_reach_map copyMove (MoveOk CopyEvent.InPages)
    (copyStart default)
    (some (.CopyToFPGA 0 sixesAndSevens 524293) :: twoChunks
      ++ some (.CopyFromFPGA 0 (fun _ => 0) 524293) :: twoChunks)
    (fun s => (s.1.thread.isIdle, [524287, 524288, 524292, 524293].map s.1.device.fpga,
      [524287, 524288, 524292].map s.1.buffer)) (true, [6, 7, 7, 0xff], [6, 7, 7])
    (by decide +kernel)
  simp only [Prod.mk.injEq] at seen
  have run := copyMove_reach (fun _ => trivial) trivial moves
  exact ⟨s, run, seen.1, seen.2.1, seen.2.2, copies_correct default s run⟩

/-- The page of offset 2^44 has no 32-bit number: its bytes go to page 0. -/
theorem copy_truncates_page
    : ¬∀ p s, Reach copyStep (fun s e => e.Sized ∧ s.1.NoWrap e) (copyStart p) s →
        s.2.Copies s.1 := by
  intro claim
  obtain ⟨s, run, seen⟩ := exec_reach_map copyStep (fun s e => e.Sized ∧ s.1.NoWrap e)
    (copyStart default) (.CopyToFPGA (2 ^ 44) (fun _ => 7) 5 :: oneChunk)
    (fun s => ((s.1.thread.isIdle, s.1.device.fpga (2 ^ 44)),
      s.2.call.map fun call => ((call.toHost, call.offset), (call.bytes, call.buffer 0))))
    ((true, 0), some ((false, 2 ^ 44), (5, 7))) (by decide +kernel)
  simp only [Prod.mk.injEq, Option.map_eq_some_iff] at seen
  obtain ⟨⟨isIdle, page⟩, call, last, ⟨direction, offset⟩, bytes, first⟩ := seen
  have leaves := (claim default s run).leaves (CopyThread.eq_idle isIdle) call last
  rw [CopyCall.Leaves, if_neg (by rw [direction]; exact Bool.false_ne_true)] at leaves
  have value := leaves (2 ^ 44)
  rw [page, CopyCall.base, CopyCall.total, offset, bytes, if_pos (by decide),
    show 2 ^ 44 - 2 ^ 44 / 4096 * 4096 = 0 from rfl, CopyCall.padded, bytes, if_pos (by decide),
    first] at value
  exact absurd value (by decide)

end BluespecPcie

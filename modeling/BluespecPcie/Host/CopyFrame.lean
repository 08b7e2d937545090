import BluespecPcie.Host.PageCopies

/-! `CopyFromFPGA`: what it does to the memory behind the caller's buffer. -/

namespace BluespecPcie

open Bluespec

-----------------------------------------------------------------------------------------
-- The memory behind the buffer
-----------------------------------------------------------------------------------------

/-- `offset` and `bytes` are a `size_t`. -/
def CopyEvent.SizeT : CopyEvent → Prop
  | .CopyToFPGA offset _ bytes | .CopyFromFPGA offset _ bytes =>
      offset < 2 ^ 64 ∧ bytes < 2 ^ 64
  | _ => True

instance CopyEvent.decidableSizeT (e : CopyEvent) : Decidable e.SizeT := by
  unfold SizeT
  split <;> infer_instance

namespace CopyCall

variable (call : CopyCall)

/-- The bytes of the whole pages, as the code counts them. -/
def pageBytes : Nat := size_t ((call.bytes + 4095) / 4096 * 4096)

/-- The number of chunks. -/
def readsCnt : Nat := (call.pageBytes + 524287) / 524288

/-- Where the last half that is copied out ends; there is one even if there are no chunks. -/
def halvesEnd : Nat := max 1 call.readsCnt * 524288

/-- The memory behind the buffer is as it was. -/
def Framed (s : CopySystem) : Prop := ∀ j, call.bytes ≤ j → s.buffer j = call.buffer j

/-- Behind the buffer the memory up to the end of the last half is set to 0xff. -/
def Padded (s : CopySystem) : Prop :=
  ∀ j, call.bytes ≤ j → s.buffer j = if j < call.halvesEnd then 0xff else call.buffer j

/-- The memory between the end of the buffer and that of the last half holds 0xff before the
call; there is none if the buffer fills its halves.
-/
def TailSet : Prop := ∀ j, call.bytes ≤ j → j < call.halvesEnd → call.buffer j = 0xff

/-- Where a call of `CopyFromFPGA` is: its counters as they are without overflow. -/
structure Reading (point : CopyPoint) (l : CopyLocals) : Prop where
  cnt : l.cnt = call.readsCnt
  within : l.i ≤ call.readsCnt
  bytes : l.bytes = call.pageBytes - l.i * 524288
  hostOffset : l.host_offset = (l.i - 1) * 524288
  dstBytes : l.user_bytes = call.bytes - (l.i - 1) * 524288
  lastbyte : 0 < l.i → l.lastbyte = min 524288 (call.pageBytes - (l.i - 1) * 524288)
  more : point.inside = true → l.i < call.readsCnt
  curbyte : point.inside = true → l.curbyte = min 524288 (call.pageBytes - l.i * 524288)
  last : point = .last → l.i = call.readsCnt

/-- A chunk begins within the bytes of the call. -/
theorem begins_within {c : Nat} (below : c < call.readsCnt) : c * 524288 < call.bytes := by
  unfold readsCnt pageBytes size_t at below
  omega

variable {call : CopyCall}

-----------------------------------------------------------------------------------------
-- The counters of the code
-----------------------------------------------------------------------------------------

/-- The locals a call starts with. -/
theorem Reading.enter (small : call.bytes < 2 ^ 64)
    : call.Reading .loop (.enter call.offset call.bytes) := by
  have whole : (CopyLocals.enter call.offset call.bytes).bytes = call.pageBytes := by
    change (if call.bytes % 4096 ≠ 0 then size_t ((call.bytes / 4096 + 1) * 4096) else call.bytes)
      = size_t ((call.bytes + 4095) / 4096 * 4096)
    unfold size_t
    split <;> omega
  have cnt : (CopyLocals.enter call.offset call.bytes).cnt
      = (CopyLocals.enter call.offset call.bytes).bytes / 524288
        + (if (CopyLocals.enter call.offset call.bytes).bytes % 524288 ≠ 0 then 1 else 0) := rfl
  have first : (CopyLocals.enter call.offset call.bytes).i = 0 := rfl
  constructor
  case cnt =>
    rw [cnt, whole, readsCnt]
    split <;> omega
  case within => exact Nat.zero_le _
  case bytes => rw [whole, first, Nat.zero_mul, Nat.sub_zero]
  case hostOffset =>
    rw [first, Nat.zero_sub, Nat.zero_mul]
    rfl
  case dstBytes =>
    rw [first, Nat.zero_sub, Nat.zero_mul, Nat.sub_zero]
    rfl
  case lastbyte => exact fun positive => absurd positive (Nat.lt_irrefl 0)
  case more | curbyte => exact fun inside => absurd inside Bool.false_ne_true
  case last => exact fun other => nomatch other

/-- The iteration chooses its chunk. -/
theorem Reading.choose {l : CopyLocals} (inv : call.Reading .loop l) (more : l.i < l.cnt)
    : call.Reading .hostArg l.chunk := by
  have bytes := inv.bytes
  refine ⟨inv.cnt, inv.within, bytes, inv.hostOffset, inv.dstBytes, inv.lastbyte, ?_, ?_, nofun⟩
  · intro _
    rw [← inv.cnt]
    exact more
  · intro _
    simp only [CopyLocals.chunk, CopyLocals.nextBytes, m_max_dma_bytes, bytes]
    split <;> omega

/-- The locals stay as they are while the iteration works on its chunk. -/
theorem Reading.stay {point point' : CopyPoint} {l : CopyLocals} (inv : call.Reading point l)
    (inside : point.inside = true) (still : point'.inside = true)
    : call.Reading point' l := by
  refine ⟨inv.cnt, inv.within, inv.bytes, inv.hostOffset, inv.dstBytes, inv.lastbyte,
    fun _ => inv.more inside, fun _ => inv.curbyte inside, ?_⟩
  rintro rfl
  cases still

/-- The loop ends behind the last chunk. -/
theorem Reading.leave {l : CopyLocals} (inv : call.Reading .loop l) (noMore : ¬l.i < l.cnt)
    : call.Reading .last l := by
  refine ⟨inv.cnt, inv.within, inv.bytes, inv.hostOffset, inv.dstBytes, inv.lastbyte, nofun,
    nofun, ?_⟩
  intro _
  have within := inv.within
  rw [inv.cnt] at noMore
  omega

/-- The chunk before the one of a wait fills its half. -/
theorem Reading.fullHalf {l : CopyLocals} (inv : call.Reading .poll l) (later : 0 < l.i)
    : l.lastbyte = 524288 := by
  have more := inv.more rfl
  rw [inv.lastbyte later]
  unfold readsCnt at more
  omega

/-- The next iteration. -/
theorem Reading.next {l : CopyLocals} (inv : call.Reading .poll l) (small : call.bytes < 2 ^ 64)
    : call.Reading .loop l.nextRead := by
  have more := inv.more rfl
  have begins := call.begins_within more
  have fits : l.i * 524288 < 2 ^ 64 := Nat.lt_trans begins small
  have ends (later : 0 < l.i) : (l.i - 1) * 524288 + 524288 = l.i * 524288 := by omega
  have curbyte := inv.curbyte rfl
  have pages : call.pageBytes < 2 ^ 64 := by
    unfold pageBytes size_t
    omega
  constructor
  case cnt => exact inv.cnt
  case within => exact more
  case bytes =>
    change size_t (l.bytes + 2 ^ 64 - l.curbyte) = call.pageBytes - (l.i + 1) * 524288
    have rest : call.pageBytes - l.i * 524288 < 2 ^ 64 := Nat.lt_of_le_of_lt (Nat.sub_le _ _) pages
    rw [inv.bytes, curbyte, size_t_sub (Nat.min_le_right _ _) rest]
    omega
  case hostOffset =>
    change (if l.i > 0 then size_t (l.host_offset + l.lastbyte) else l.host_offset)
      = l.i * 524288
    split
    next later =>
      rw [inv.hostOffset, inv.fullHalf later, ends later, size_t_of_lt fits]
    next first =>
      rw [inv.hostOffset]
      omega
  case dstBytes =>
    change (if l.i > 0 then size_t (l.user_bytes + 2 ^ 64 - l.lastbyte) else l.user_bytes)
      = call.bytes - l.i * 524288
    split
    next later =>
      have leaves : 524288 ≤ call.bytes - (l.i - 1) * 524288 := by omega
      have fits : call.bytes - (l.i - 1) * 524288 < 2 ^ 64 :=
        Nat.lt_of_le_of_lt (Nat.sub_le _ _) small
      rw [inv.dstBytes, inv.fullHalf later, size_t_sub leaves fits]
      omega
    next first =>
      rw [inv.dstBytes]
      omega
  case lastbyte => exact fun _ => curbyte
  case more | curbyte => exact fun inside => absurd inside Bool.false_ne_true
  case last => exact fun other => nomatch other

-----------------------------------------------------------------------------------------
-- The copies
-----------------------------------------------------------------------------------------

/-- A half that is copied out in the loop lies within the buffer. -/
theorem Framed.poll {s : CopySystem} {l : CopyLocals} (framed : call.Framed s)
    (inv : call.Reading .poll l) (later : 0 < l.i) (src : ByteMap) (start j : Nat)
    (behind : call.bytes ≤ j)
    : memcpy s.buffer l.host_offset src start l.lastbyte j = call.buffer j := by
  have begins := call.begins_within (inv.more rfl)
  have hostOffset := inv.hostOffset
  have full := inv.fullHalf later
  rw [memcpy_outside _ _ _ _ (by omega)]
  exact framed j behind

/-- The last half is set to 0xff behind the buffer. -/
theorem Framed.drainLast {s : CopySystem} {l : CopyLocals} (framed : call.Framed s)
    (inv : call.Reading .last l) (j : Nat) (behind : call.bytes ≤ j)
    : s.drainLast l j = if j < call.halvesEnd then 0xff else call.buffer j := by
  have hostOffset := inv.hostOffset
  have dstBytes := inv.dstBytes
  rw [inv.last rfl] at hostOffset dstBytes
  have ends : call.halvesEnd = l.host_offset + 524288 := by
    unfold halvesEnd
    omega
  have starts : l.host_offset ≤ call.bytes := by
    rcases Nat.eq_zero_or_pos call.readsCnt with none | some
    · omega
    · have begins := call.begins_within (show call.readsCnt - 1 < call.readsCnt by omega)
      omega
  have rest : l.user_bytes = call.bytes - l.host_offset := by omega
  rw [← framed j behind, ends, CopySystem.drainLast, show m_max_dma_bytes / 2 = 524288 from rfl]
  by_cases full : l.user_bytes ≥ 524288
  · rw [if_pos full, memcpy_outside _ _ _ _ (by omega), if_neg (by omega)]
  · rw [if_neg full, memset]
    by_cases padding : j < l.host_offset + 524288
    · rw [if_pos (by omega), if_pos padding]
    · rw [if_neg (by omega), if_neg padding, memcpy_outside _ _ _ _ (by omega)]

end CopyCall

-----------------------------------------------------------------------------------------
-- Runs
-----------------------------------------------------------------------------------------

/-- What a call of `CopyFromFPGA` has done to the memory behind its buffer. -/
def CopyFramed (s : CopySystem) (log : CopyLog) : Prop :=
  match s.thread with
  | .idle => ∀ call, log.call = some call → call.toHost = true → call.Padded s
  | .CopyToFPGA _ _ => ∀ call, log.call = some call → call.toHost = false
  | .CopyFromFPGA point l =>
      ∃ call, log.call = some call ∧ call.bytes < 2 ^ 64 ∧ call.Reading point l ∧ call.Framed s

/-- A step of the thread keeps the call. -/
theorem record_host_call (s : CopySystem) (log : CopyLog)
    : (log.record s .host).call = log.call := by
  unfold CopyLog.record
  simp only
  split <;> rfl

variable {s s' : CopySystem} {log : CopyLog}

/-- A step of `CopyToFPGA`. -/
theorem CopyFramed.write {point : CopyPoint} {l : CopyLocals}
    (here : s.thread = .CopyToFPGA point l)
    (other : ∀ call, log.call = some call → call.toHost = false)
    : CopyFramed (s.CopyToFPGA point l) log := by
  have goes {after : CopySystem} {point' : CopyPoint} {l' : CopyLocals}
      (same : after.thread = .CopyToFPGA point' l')
      : CopyFramed after log := by
    unfold CopyFramed
    rw [same]
    exact other
  have idle {after : CopySystem} (returned : after.thread = .idle) : CopyFramed after log := by
    unfold CopyFramed
    rw [returned]
    intro call made toHost
    rw [other call made] at toHost
    cases toHost
  cases point with
  | loop =>
      unfold CopySystem.CopyToFPGA
      simp only
      split
      next => exact goes rfl
      next => exact goes rfl
  | hostArg | fpgaArg | command => exact goes rfl
  | poll =>
      unfold CopySystem.CopyToFPGA
      simp only
      split
      next => exact goes here
      next => exact goes rfl
  | last =>
      unfold CopySystem.CopyToFPGA
      simp only
      split
      next => exact goes here
      next => exact idle rfl

/-- A step of `CopyFromFPGA`. -/
theorem CopyFramed.read {call : CopyCall} {point : CopyPoint} {l : CopyLocals}
    (here : s.thread = .CopyFromFPGA point l) (made : log.call = some call)
    (small : call.bytes < 2 ^ 64) (inv : call.Reading point l) (framed : call.Framed s)
    : CopyFramed (s.CopyFromFPGA point l) log := by
  have goes {after : CopySystem} {point' : CopyPoint} {l' : CopyLocals}
      (same : after.thread = .CopyFromFPGA point' l') (inv' : call.Reading point' l')
      (framed' : call.Framed after)
      : CopyFramed after log := by
    unfold CopyFramed
    rw [same]
    exact ⟨call, made, small, inv', framed'⟩
  cases point with
  | loop =>
      unfold CopySystem.CopyFromFPGA
      simp only
      split
      next more => exact goes rfl (inv.choose more) framed
      next noMore => exact goes rfl (inv.leave noMore) framed
  | hostArg => exact goes rfl (inv.stay rfl rfl) framed
  | fpgaArg => exact goes rfl (inv.stay rfl rfl) framed
  | command => exact goes rfl (inv.stay rfl rfl) framed
  | poll =>
      unfold CopySystem.CopyFromFPGA
      simp only
      split
      next => exact goes here inv framed
      next =>
        refine goes rfl (inv.next small) ?_
        intro j behind
        change (if l.i > 0 then _ else s.buffer) j = call.buffer j
        split
        next later => exact framed.poll inv later _ _ j behind
        next => exact framed j behind
  | last =>
      unfold CopySystem.CopyFromFPGA
      simp only
      split
      next => exact goes here inv framed
      next =>
        intro other same _
        cases made.symm.trans same
        exact framed.drainLast inv

/-- Every event keeps the invariant. -/
theorem CopyFramed.step {e : CopyEvent} (inv : CopyFramed s log) (sized : e.SizeT)
    (fires : s.step e = some s')
    : CopyFramed s' (log.record s e) := by
  -- the device leaves the thread and the caller's memory
  have device (thread : s'.thread = s.thread) (buffer : s'.buffer = s.buffer)
      : CopyFramed s' log := by
    unfold CopyFramed CopyCall.Padded CopyCall.Framed at inv ⊢
    rw [thread, buffer]
    exact inv
  cases e with
  | CopyToFPGA offset buffer bytes =>
      simp only [CopySystem.step] at fires
      split at fires
      next =>
        cases fires
        intro call made
        cases made
        rfl
      next => cases fires
  | CopyFromFPGA offset buffer bytes =>
      simp only [CopySystem.step] at fires
      split at fires
      next =>
        cases fires
        exact ⟨_, rfl, sized.2, .enter sized.2, fun _ _ => rfl⟩
      next => cases fires
  | host =>
      have same : CopyFramed s' (log.record s .host) = CopyFramed s' log := by
        unfold CopyFramed
        rw [record_host_call]
      rw [same]
      simp only [CopySystem.step, CopySystem.host] at fires
      unfold CopyFramed at inv
      split at fires
      next => cases fires
      next point l here =>
        cases fires
        rw [here] at inv
        exact .write here inv
      next point l here =>
        cases fires
        rw [here] at inv
        obtain ⟨call, made, small, reading, framed⟩ := inv
        exact .read here made small reading framed
  | move j k n =>
      obtain ⟨cmd, moves⟩ := CopySystem.move_cases fires
      exact device moves.thread moves.buffer
  | done =>
      obtain ⟨d, _, rfl⟩ := Option.map_eq_some_iff.mp fires
      exact device rfl rfl

/-- The invariant holds in every run. -/
theorem reach_copyFramed {p : CopyStart} {state : CopySystem × CopyLog}
    (run : Reach copyStep (fun _ e => e.SizeT) (copyStart p) state)
    : CopyFramed state.1 state.2 := by
  have initial : CopyFramed (copyStart p).1 (copyStart p).2 := by
    intro call made
    cases made
  refine run.invariant (P := fun state => CopyFramed state.1 state.2) initial ?_
  intro state e next inv sized fires
  obtain ⟨fired, recorded⟩ := traced_eq_some.mp fires
  rw [recorded]
  exact inv.step sized fired

/-- When a call of `CopyFromFPGA` returns, the memory behind the caller's buffer is as it was
exactly if the bytes up to the end of the last half held 0xff before.
-/
theorem copyFromFPGA_frames (p : CopyStart) (s : CopySystem) (log : CopyLog) (call : CopyCall)
    (run : Reach copyStep (fun _ e => e.SizeT) (copyStart p) (s, log))
    (made : log.call = some call) (fromFPGA : call.toHost = true) (returned : s.thread = .idle)
    : call.Framed s ↔ call.TailSet := by
  have inv := reach_copyFramed run
  unfold CopyFramed at inv
  simp only [returned] at inv
  have padded := inv call made fromFPGA
  constructor
  · intro framed j behind within
    have same := padded j behind
    rw [if_pos within, framed j behind] at same
    exact same
  · intro tail j behind
    rw [padded j behind]
    split
    next within => exact (tail j behind within).symm
    next => rfl

/-- A buffer of five zeros with 0xff behind it. -/
def fiveZeros : ByteMap := fun x => if x < 5 then 0 else 0xff

/-- A call for five bytes: the loop, the registers and the waits, and the device between them. -/
def readFive : List (Option CopyEvent) :=
  some (.CopyFromFPGA 0 fiveZeros 5) :: List.replicate 6 (some .host) ++ [none, some .host]

/-- Both counters are zero, and the FPGA memory is full of threes. -/
def threes : CopySystem × CopyLog := copyStart ⟨0, 0, fun _ => 0, fun _ => 0, fun _ => 3⟩

/-- Five bytes are read; before the call the memory behind the buffer held 0xff, and it still
does.
-/
theorem copyFromFPGA_frames_five
    : ∃ s log call,
        Reach copyStep (fun _ e => e.SizeT) threes (s, log)
        ∧ log.call = some call
        ∧ call.toHost = true
        ∧ s.thread = .idle
        ∧ (call.bytes, call.buffer 4, s.buffer 4) = (5, 0, 3)
        ∧ call.TailSet
        ∧ call.Framed s := by
  have call : (exec (guarded copyMove (MoveOk CopyEvent.SizeT)) threes readFive).map (·.2.call)
      = some (some ⟨true, 0, 5, fiveZeros, fun _ => 3⟩) := rfl
  have seen : (exec (guarded copyMove (MoveOk CopyEvent.SizeT)) threes readFive).map
      (fun s => (s.1.thread.isIdle, s.1.buffer 4)) = some (true, 3) := by
    decide +kernel
  obtain ⟨⟨s, log⟩, ran, made⟩ := Option.map_eq_some_iff.mp call
  rw [ran, Option.map_some, Option.some.injEq, Prod.mk.injEq] at seen
  obtain ⟨isIdle, read⟩ := seen
  have returned := CopyThread.eq_idle isIdle
  have moves := exec_reach ran
  have run := (copyMove_reach (fun _ => trivial) trivial moves).weaken And.left
  have framed := copyFromFPGA_frames _ s log _ run made rfl returned
  have tail : (CopyCall.mk true 0 5 fiveZeros (fun _ => 3)).TailSet := by
    intro j behind _
    exact if_neg (Nat.not_lt.mpr behind)
  exact ⟨s, log, _, run, made, rfl, returned, congrArg (5, 0, ·) read, tail, framed.mpr tail⟩

/-- A call for no bytes whose buffer holds `value` everywhere behind it. -/
def readNothing (value : BitVec 8) : List CopyEvent :=
  [.CopyFromFPGA 0 (fun _ => value) 0, .host, .host]

/-- A call for no bytes sets 512 KB behind the buffer to 0xff. -/
theorem copyFromFPGA_frames_zeros
    : ∃ s log call,
        Reach copyStep (fun _ e => e.SizeT) (copyStart default) (s, log)
        ∧ log.call = some call
        ∧ call.toHost = true
        ∧ s.thread = .idle
        ∧ (call.bytes, call.buffer 0, s.buffer 0) = (0, 0, 0xff)
        ∧ ¬ call.Framed s := by
  obtain ⟨⟨s, log⟩, run, seen⟩ := exec_reach_map copyStep (fun _ e => e.SizeT)
    (copyStart default) (readNothing 0) (fun s => ((s.2.call, s.1.thread), s.1.buffer 0))
    ((some ⟨true, 0, 0, fun _ => 0, default⟩, .idle), 0xff) rfl
  obtain ⟨ends, first⟩ := Prod.mk.inj seen
  obtain ⟨made, returned⟩ := Prod.mk.inj ends
  have set : s.buffer 0 = 0xff := first
  refine ⟨s, log, _, run, made, rfl, returned, by rw [set], ?_⟩
  intro framed
  have same := framed 0 (Nat.le_refl 0)
  rw [set] at same
  exact absurd same (by decide)

end BluespecPcie

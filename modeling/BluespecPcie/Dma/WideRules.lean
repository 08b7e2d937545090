import BluespecPcie.Dma.WidePackets

/-! The rules of `mkDMAWideCtrl`: the user's writes and the packets keep apart. -/

namespace BluespecPcie

open Bluespec

/-- The user's writes and the packets in the module: `n` packets are made, `c` slots requested
and the words `sent` stored in the ring.
-/
structure Carried (P : TaggedDma) (m : DMAWideCtrl) (p : P.State) (log : PacketLog) (n c : Nat)
    (sent : List DMAWord) : Prop where
  labelled : m.wm00.Labelled 0 255
  user : ∃ userSent tag, m.userSide.Inv P p log.requested log.supplied userSent tag
  packets : m.packetSide.Inv P p log.enqueued n c sent

/-- What the writes of the host go through. -/
def DMAWideCtrl.hostSide (m : DMAWideCtrl) : BitVec 32 × Fifo IOWrite 2 :=
  (m.enqReceivedIdx, m.userWrite1Q)

/-- What a rule may change on the way of the packets: it begins one only if the ring is not
full.
-/
structure Advances (m m' : DMAWideCtrl) (n n' : Nat) (sent sent' : List DMAWord) : Prop where
  host : m'.hostSide = m.hostSide
  stored : sent.length ≤ sent'.length
  begun
    : m'.packetSide.begun n' ≤ m.packetSide.begun n
      ∨ m'.packetSide.begun n' = n + 1 ∧ m.enqIdx - m.enqReceivedIdx < 128

/-- A rule that leaves the packets. -/
theorem Advances.same {m m' : DMAWideCtrl} {n : Nat} {sent : List DMAWord}
    (host : m'.hostSide = m.hostSide) (state : m'.enqState = m.enqState)
    : Advances m m' n n sent sent := by
  refine ⟨host, Nat.le_refl _, .inl (Nat.le_of_eq ?_)⟩
  change n + (if m'.enqState = 0 then 0 else 1) = n + if m.enqState = 0 then 0 else 1
  rw [state]

variable {P : TaggedDma} {m m' : DMAWideCtrl} {p p' : P.State} {log : PacketLog} {n c : Nat}
  {sent : List DMAWord}

namespace Carried

theorem init (P : TaggedDma) : Carried P mkDMAWideCtrl P.init {} 0 0 [] := by
  refine ⟨.init, ⟨[], 0, ?_⟩, .init P⟩
  exact ⟨rfl, rfl, .inl (List.prefix_refl _), nofun, nofun, nofun, nofun, nofun, nofun⟩

-----------------------------------------------------------------------------------------
-- Rules that call the interface
-----------------------------------------------------------------------------------------

/-- The next request is issued: it is the user's or the next slot's. -/
theorem issuedmaWrite {call : Option DmaWriteCall} (carried : Carried P m p log n c sent)
    (fires : m.issuedmaWrite = some (m', call)) (accepted : P.accept p call = some p')
    : ∃ c', Carried P m' p' log n c' sent ∧ Advances m m' n n sent sent := by
  unfold DMAWideCtrl.issuedmaWrite at fires
  split at fires
  next idle =>
    obtain ⟨⟨⟨src, cmd⟩, wm00⟩, taken, ⟨⟩⟩ := Option.bind_eq_some_iff.mp fires
    obtain ⟨labelled, ⟨userSent, tag, user⟩, packets⟩ := carried
    obtain ⟨labelled', source, mine, others⟩ := labelled.deq taken
    have idleUser : m.userSide.underway = 0 := by simp [DMAWideCtrl.userSide, idle]
    have idlePackets : m.packetSide.underway = 0 := by simp [DMAWideCtrl.packetSide, idle]
    rcases source with rfl | rfl
    · have side : DMAWideCtrl.packetSide
          { m with wm00, dmaWriteSrc := 0, dmaWriteCnt := cmd.words } = m.packetSide := by
        simp only [DMAWideCtrl.packetSide, idle, others 255 (by decide)]
        simp
      refine ⟨c, ⟨labelled', ⟨userSent, cmd.tag, user.issue idleUser mine accepted⟩, ?_⟩,
        .same rfl rfl⟩
      rw [side]
      exact packets.issue_user idlePackets accepted
    · have side : DMAWideCtrl.userSide
          { m with wm00, dmaWriteSrc := 255, dmaWriteCnt := cmd.words } = m.userSide := by
        simp only [DMAWideCtrl.userSide, idle, others 0 (by decide)]
        simp
      refine ⟨c + 1, ⟨labelled', ⟨userSent, tag, ?_⟩, packets.issue idlePackets mine accepted⟩,
        .same rfl rfl⟩
      rw [side]
      exact user.idle idleUser p'
  next => cases fires

/-- A word of the request under way is sent. -/
theorem senddmaWriteData {call : Option DmaWriteCall} (carried : Carried P m p log n c sent)
    (fires : m.senddmaWriteData = some (m', call)) (accepted : P.accept p call = some p')
    : ∃ sent', Carried P m' p' log n c sent' ∧ Advances m m' n n sent sent' := by
  unfold DMAWideCtrl.senddmaWriteData at fires
  split at fires
  next busy =>
    have some : 0 < m.dmaWriteCnt.toNat := busy
    have fewer : (m.dmaWriteCnt - 1).toNat = m.dmaWriteCnt.toNat - 1 := by bv_omega
    obtain ⟨labelled, ⟨userSent, tag, user⟩, packets⟩ := carried
    split at fires
    next mine =>
      obtain ⟨⟨d, dmaWriteQ⟩, taken, ⟨⟩⟩ := Option.bind_eq_some_iff.mp fires
      have busyUser : m.userSide.underway = m.dmaWriteCnt.toNat := if_pos mine
      have idlePackets : m.packetSide.underway = 0 := if_pos mine
      obtain ⟨after, addr, more, high⟩ := user.send (by rw [busyUser]; exact some)
        (Fifo.deq_eq_some.mp taken) accepted
      have side : DMAWideCtrl.userSide { m with dmaWriteCnt := m.dmaWriteCnt - 1, dmaWriteQ }
          = { m.userSide with
              underway := m.userSide.underway - 1, dmaWriteQ := dmaWriteQ.items } := by
        simp only [DMAWideCtrl.userSide, mine, fewer, if_pos]
      have other : DMAWideCtrl.packetSide { m with dmaWriteCnt := m.dmaWriteCnt - 1, dmaWriteQ }
          = m.packetSide := by
        simp only [DMAWideCtrl.packetSide, if_pos mine]
      refine ⟨sent, ⟨labelled, ⟨userSent ++ [tag], tag, ?_⟩, ?_⟩, .same rfl rfl⟩
      · rw [side]
        exact after
      · rw [other]
        exact packets.send_user idlePackets more high
    next mine =>
      obtain ⟨⟨d, enqDmaWriteQ⟩, taken, fires⟩ := Option.bind_eq_some_iff.mp fires
      obtain ⟨assertInterruptQ, rfl, rfl⟩ : ∃ assertInterruptQ,
          m' = { m with dmaWriteCnt := m.dmaWriteCnt - 1, enqDmaWriteQ, assertInterruptQ }
          ∧ call = Option.some (.dmaWriteData d.word d.tag) := by
        simp only at fires
        split at fires
        next =>
          obtain ⟨assertInterruptQ, _, ⟨⟩⟩ := Option.bind_eq_some_iff.mp fires
          exact ⟨assertInterruptQ, rfl, rfl⟩
        next =>
          cases fires
          exact ⟨m.assertInterruptQ, rfl, rfl⟩
      have idleUser : m.userSide.underway = 0 := if_neg mine
      have busyPackets : m.packetSide.underway = m.dmaWriteCnt.toNat := if_neg mine
      have after := packets.send (by rw [busyPackets]; exact some) (Fifo.deq_eq_some.mp taken)
        accepted
      have side : DMAWideCtrl.packetSide
          { m with dmaWriteCnt := m.dmaWriteCnt - 1, enqDmaWriteQ, assertInterruptQ }
          = { m.packetSide with
              underway := m.packetSide.underway - 1, enqDmaWriteQ := enqDmaWriteQ.items } := by
        simp only [DMAWideCtrl.packetSide, if_neg mine, fewer]
      have other : DMAWideCtrl.userSide
          { m with dmaWriteCnt := m.dmaWriteCnt - 1, enqDmaWriteQ, assertInterruptQ }
          = m.userSide := by
        simp only [DMAWideCtrl.userSide, if_neg mine]
      refine ⟨sent ++ [d.word], ⟨labelled, ⟨userSent, tag, ?_⟩, ?_⟩,
        rfl, by simp, .inl (Nat.le_refl _)⟩
      · rw [other]
        exact user.idle idleUser p'
      · rw [side]
        exact after
  next => cases fires

-----------------------------------------------------------------------------------------
-- Rules of the packets
-----------------------------------------------------------------------------------------

/-- The packets' rules leave the user's writes. -/
theorem startEnqPacket (carried : Carried P m p log n c sent)
    (fires : m.startEnqPacket = some m')
    : Carried P m' p log n c sent ∧ Advances m m' n n sent sent := by
  unfold DMAWideCtrl.startEnqPacket at fires
  split at fires
  next ready =>
    obtain ⟨⟨word, enq2Q⟩, taken, fires⟩ := Option.bind_eq_some_iff.mp fires
    obtain ⟨enqDataQ, put, fires⟩ := Option.bind_eq_some_iff.mp fires
    obtain ⟨wm00, asked, ⟨⟩⟩ := Option.bind_eq_some_iff.mp fires
    obtain ⟨labelled, ⟨userSent, tag, user⟩, packets⟩ := carried
    obtain ⟨labelled', mine, others⟩ := labelled.enq_port1 asked
    have first : m.packetSide.words = word :: (enq2Q.items ++ m.enqQ.items ++ m.enqcQ.items) := by
      simp [DMAWideCtrl.packetSide, Fifo.deq_eq_some.mp taken]
    have after := packets.start ready.1 first
    refine ⟨⟨labelled', ⟨userSent, tag, ?_⟩, ?_⟩, rfl, Nat.le_refl _, .inr ⟨rfl, ready.2⟩⟩
    · rw [DMAWideCtrl.userSide, others 0 (by decide)]
      exact user
    · rw [DMAWideCtrl.packetSide, mine, (Fifo.enq_eq_some.mp put).2]
      exact after
  next => cases fires

theorem sendEnqPacket (carried : Carried P m p log n c sent)
    (fires : m.sendEnqPacket = some m')
    : Carried P m' p log n c sent ∧ Advances m m' n n sent sent := by
  unfold DMAWideCtrl.sendEnqPacket at fires
  split at fires
  next state =>
    obtain ⟨⟨word, enqDataQ⟩, taken, fires⟩ := Option.bind_eq_some_iff.mp fires
    obtain ⟨enqDmaWriteQ, put, ⟨⟩⟩ := Option.bind_eq_some_iff.mp fires
    obtain ⟨labelled, user, packets⟩ := carried
    have after := packets.sendEnqPacket state (Fifo.deq_eq_some.mp taken)
    refine ⟨⟨labelled, user, ?_⟩, rfl, Nat.le_refl _, .inl ?_⟩
    · rw [DMAWideCtrl.packetSide, (Fifo.enq_eq_some.mp put).2]
      exact after
    · simp [PacketSide.begun, DMAWideCtrl.packetSide, state]
  next => cases fires

theorem sendEnqIdx (carried : Carried P m p log n c sent) (fires : m.sendEnqIdx = some m')
    : Carried P m' p log (n + 1) c sent ∧ Advances m m' n (n + 1) sent sent := by
  unfold DMAWideCtrl.sendEnqIdx at fires
  split at fires
  next state =>
    obtain ⟨⟨head, enqh2Q⟩, taken, fires⟩ := Option.bind_eq_some_iff.mp fires
    obtain ⟨enqDmaWriteQ, put, ⟨⟩⟩ := Option.bind_eq_some_iff.mp fires
    obtain ⟨labelled, user, packets⟩ := carried
    have first : m.packetSide.heads
        = head :: (enqh2Q.items ++ m.enqhQ.items ++ m.enqchQ.items) := by
      simp [DMAWideCtrl.packetSide, Fifo.deq_eq_some.mp taken]
    have after := packets.sendEnqIdx state first
    refine ⟨⟨labelled, user, ?_⟩, rfl, Nat.le_refl _, .inl ?_⟩
    · rw [DMAWideCtrl.packetSide, (Fifo.enq_eq_some.mp put).2]
      exact after
    · simp [PacketSide.begun, DMAWideCtrl.packetSide, state]
  next => cases fires

/-- The synchronizers keep the order of the packets. -/
theorem relayEnqPacket (carried : Carried P m p log n c sent)
    (fires : m.relayEnqPacket = some m')
    : Carried P m' p log n c sent ∧ Advances m m' n n sent sent := by
  obtain ⟨⟨word, enqcQ⟩, wordTaken, fires⟩ := Option.bind_eq_some_iff.mp fires
  obtain ⟨enqQ, wordPut, fires⟩ := Option.bind_eq_some_iff.mp fires
  obtain ⟨⟨head, enqchQ⟩, headTaken, fires⟩ := Option.bind_eq_some_iff.mp fires
  obtain ⟨enqhQ, headPut, ⟨⟩⟩ := Option.bind_eq_some_iff.mp fires
  have side : DMAWideCtrl.packetSide { m with enqcQ, enqQ, enqchQ, enqhQ } = m.packetSide := by
    simp [DMAWideCtrl.packetSide, Fifo.deq_eq_some.mp wordTaken, Fifo.deq_eq_some.mp headTaken,
      (Fifo.enq_eq_some.mp wordPut).2, (Fifo.enq_eq_some.mp headPut).2]
  refine ⟨⟨carried.labelled, carried.user, ?_⟩, .same rfl rfl⟩
  rw [side]
  exact carried.packets

theorem relayEnqPacketC (carried : Carried P m p log n c sent)
    (fires : m.relayEnqPacketC = some m')
    : Carried P m' p log n c sent ∧ Advances m m' n n sent sent := by
  obtain ⟨⟨word, enqQ⟩, wordTaken, fires⟩ := Option.bind_eq_some_iff.mp fires
  obtain ⟨enq2Q, wordPut, fires⟩ := Option.bind_eq_some_iff.mp fires
  obtain ⟨⟨head, enqhQ⟩, headTaken, fires⟩ := Option.bind_eq_some_iff.mp fires
  obtain ⟨enqh2Q, headPut, ⟨⟩⟩ := Option.bind_eq_some_iff.mp fires
  have side : DMAWideCtrl.packetSide { m with enqQ, enq2Q, enqhQ, enqh2Q } = m.packetSide := by
    simp [DMAWideCtrl.packetSide, Fifo.deq_eq_some.mp wordTaken, Fifo.deq_eq_some.mp headTaken,
      (Fifo.enq_eq_some.mp wordPut).2, (Fifo.enq_eq_some.mp headPut).2]
  refine ⟨⟨carried.labelled, carried.user, ?_⟩, .same rfl rfl⟩
  rw [side]
  exact carried.packets

/-- A merge step keeps the order of the user's requests and that of the slots. -/
theorem merge (carried : Carried P m p log n c sent) (fires : m.merge = some m')
    : Carried P m' p log n c sent ∧ Advances m m' n n sent sent := by
  obtain ⟨wm00, merged, ⟨⟩⟩ := Option.bind_eq_some_iff.mp fires
  obtain ⟨labelled, ⟨userSent, tag, user⟩, packets⟩ := carried
  obtain ⟨labelled', same⟩ := labelled.merge (by decide) merged
  refine ⟨⟨labelled', ⟨userSent, tag, ?_⟩, ?_⟩, .same rfl rfl⟩
  · rw [DMAWideCtrl.userSide, same 0]
    exact user
  · rw [DMAWideCtrl.packetSide, same 255]
    exact packets

-----------------------------------------------------------------------------------------
-- Rules of the user's writes
-----------------------------------------------------------------------------------------

end Carried

/-- A step on the user's side leaves the merge, the packets and the writes of the host. -/
structure LeavesPackets (m m' : DMAWideCtrl) : Prop where
  merge : m'.wm00 = m.wm00
  packets : m'.packetSide = m.packetSide
  host : m'.hostSide = m.hostSide
  state : m'.enqState = m.enqState

namespace LeavesPackets

theorem relayDmaWriteQ (fires : m.relayDmaWriteQ = some m') : LeavesPackets m m' := by
  unfold DMAWideCtrl.relayDmaWriteQ at fires
  split at fires
  next =>
    obtain ⟨dmaWriteQ, _, ⟨⟩⟩ := Option.bind_eq_some_iff.mp fires
    exact ⟨rfl, rfl, rfl, rfl⟩
  next =>
    obtain ⟨⟨d, dmaWritecQ⟩, _, fires⟩ := Option.bind_eq_some_iff.mp fires
    obtain ⟨dmaWriteQ, _, ⟨⟩⟩ := Option.bind_eq_some_iff.mp fires
    exact ⟨rfl, rfl, rfl, rfl⟩

theorem startDivideWriteReq (fires : m.startDivideWriteReq = some m')
    : LeavesPackets m m' := by
  unfold DMAWideCtrl.startDivideWriteReq at fires
  split at fires
  next =>
    obtain ⟨⟨⟨addr, words, t⟩, writeReqQ⟩, _, fires⟩ := Option.bind_eq_some_iff.mp fires
    simp only at fires
    split at fires
    next =>
      obtain ⟨reqQ, _, ⟨⟩⟩ := Option.bind_eq_some_iff.mp fires
      exact ⟨rfl, rfl, rfl, rfl⟩
    next =>
      obtain ⟨reqQ, _, ⟨⟩⟩ := Option.bind_eq_some_iff.mp fires
      exact ⟨rfl, rfl, rfl, rfl⟩
  next => cases fires

theorem divideWritereq (fires : m.divideWritereq = some m') : LeavesPackets m m' := by
  unfold DMAWideCtrl.divideWritereq at fires
  split at fires
  next =>
    split at fires
    next =>
      obtain ⟨reqQ, _, ⟨⟩⟩ := Option.bind_eq_some_iff.mp fires
      exact ⟨rfl, rfl, rfl, rfl⟩
    next =>
      obtain ⟨reqQ, _, ⟨⟩⟩ := Option.bind_eq_some_iff.mp fires
      exact ⟨rfl, rfl, rfl, rfl⟩
  next => cases fires

theorem relaydmawrqsync (fires : m.relaydmawrqsync = some m') : LeavesPackets m m' := by
  obtain ⟨⟨r, reqQ⟩, _, fires⟩ := Option.bind_eq_some_iff.mp fires
  simp only at fires
  split at fires
  next =>
    obtain ⟨sfifodma, _, ⟨⟩⟩ := Option.bind_eq_some_iff.mp fires
    exact ⟨rfl, rfl, rfl, rfl⟩
  next => cases fires

end LeavesPackets

namespace Carried

/-- A step on the user's side. -/
theorem of_user {log' : PacketLog} (carried : Carried P m p log n c sent)
    (leaves : LeavesPackets m m') (same : log'.enqueued = log.enqueued)
    (user
      : ∀ userSent tag,
          m.userSide.Inv P p log.requested log.supplied userSent tag
          → m'.userSide.Inv P p log'.requested log'.supplied userSent tag)
    : Carried P m' p log' n c sent ∧ Advances m m' n n sent sent := by
  obtain ⟨labelled, ⟨userSent, tag, inv⟩, packets⟩ := carried
  refine ⟨⟨?_, ⟨userSent, tag, user userSent tag inv⟩, ?_⟩, .same leaves.host leaves.state⟩
  · rw [leaves.merge]
    exact labelled
  · rw [leaves.packets, same]
    exact packets

theorem relaydmawrq (carried : Carried P m p log n c sent) (fires : m.relaydmawrq = some m')
    : Carried P m' p log n c sent ∧ Advances m m' n n sent sent := by
  obtain ⟨labelled, ⟨userSent, tag, user⟩, packets⟩ := carried
  obtain ⟨user', labelled', slots⟩ := DMAWideCtrl.userInv_relaydmawrq user labelled fires
  obtain ⟨⟨r, sfifodma⟩, _, fires⟩ := Option.bind_eq_some_iff.mp fires
  obtain ⟨wm00, _, ⟨⟩⟩ := Option.bind_eq_some_iff.mp fires
  refine ⟨⟨labelled', ⟨userSent, tag, user'⟩, ?_⟩, .same rfl rfl⟩
  rw [DMAWideCtrl.packetSide, slots]
  exact packets

-----------------------------------------------------------------------------------------
-- All rules
-----------------------------------------------------------------------------------------

/-- Every rule but the one for the writes of the host. -/
theorem fire {rule : DMAWideCtrlRule} {call : Option DmaWriteCall}
    (carried : Carried P m p log n c sent) (other : rule ≠ .procFC)
    (fires : m.fire rule = some (m', call)) (accepted : P.accept p call = some p')
    : ∃ n' c' sent', Carried P m' p' log n' c' sent' ∧ Advances m m' n n' sent sent' := by
  cases rule with
  | procFC => exact absurd rfl other
  | userWriteReq =>
      obtain ⟨_, fired, ⟨⟩⟩ := Option.map_eq_some_iff.mp fires
      cases accepted
      obtain ⟨⟨d, userWriteQ⟩, _, fired⟩ := Option.bind_eq_some_iff.mp fired
      simp only at fired
      split at fired
      next =>
        obtain ⟨ioRecvQ, _, fired⟩ := Option.bind_eq_some_iff.mp fired
        obtain ⟨ioRecvHQ, _, ⟨⟩⟩ := Option.bind_eq_some_iff.mp fired
        exact ⟨n, c, sent, ⟨carried.labelled, carried.user, carried.packets⟩, .same rfl rfl⟩
      next =>
        cases fired
        exact ⟨n, c, sent, ⟨carried.labelled, carried.user, carried.packets⟩, .same rfl rfl⟩
  | relayDmaWriteQ =>
      obtain ⟨_, fired, ⟨⟩⟩ := Option.map_eq_some_iff.mp fires
      cases accepted
      exact ⟨n, c, sent, carried.of_user (.relayDmaWriteQ fired) rfl
        (fun _ _ inv => DMAWideCtrl.userInv_relayDmaWriteQ inv fired)⟩
  | startDivideWriteReq =>
      obtain ⟨_, fired, ⟨⟩⟩ := Option.map_eq_some_iff.mp fires
      cases accepted
      exact ⟨n, c, sent, carried.of_user (.startDivideWriteReq fired) rfl
        (fun _ _ inv => DMAWideCtrl.userInv_startDivideWriteReq inv fired)⟩
  | divideWritereq =>
      obtain ⟨_, fired, ⟨⟩⟩ := Option.map_eq_some_iff.mp fires
      cases accepted
      exact ⟨n, c, sent, carried.of_user (.divideWritereq fired) rfl
        (fun _ _ inv => DMAWideCtrl.userInv_divideWritereq inv fired)⟩
  | relaydmawrqsync =>
      obtain ⟨_, fired, ⟨⟩⟩ := Option.map_eq_some_iff.mp fires
      cases accepted
      exact ⟨n, c, sent, carried.of_user (.relaydmawrqsync fired) rfl
        (fun _ _ inv => DMAWideCtrl.userInv_relaydmawrqsync inv fired)⟩
  | relaydmawrq =>
      obtain ⟨_, fired, ⟨⟩⟩ := Option.map_eq_some_iff.mp fires
      cases accepted
      exact ⟨n, c, sent, carried.relaydmawrq fired⟩
  | merge =>
      obtain ⟨_, fired, ⟨⟩⟩ := Option.map_eq_some_iff.mp fires
      cases accepted
      exact ⟨n, c, sent, carried.merge fired⟩
  | assertInterrupt =>
      obtain ⟨_, fired, ⟨⟩⟩ := Option.map_eq_some_iff.mp fires
      cases accepted
      obtain ⟨⟨_, assertInterruptQ⟩, _, ⟨⟩⟩ := Option.bind_eq_some_iff.mp fired
      exact ⟨n, c, sent, ⟨carried.labelled, carried.user, carried.packets⟩, .same rfl rfl⟩
  | issuedmaWrite =>
      obtain ⟨c', after⟩ := carried.issuedmaWrite fires accepted
      exact ⟨n, c', sent, after⟩
  | senddmaWriteData =>
      obtain ⟨sent', after⟩ := carried.senddmaWriteData fires accepted
      exact ⟨n, c, sent', after⟩
  | relayEnqPacket =>
      obtain ⟨_, fired, ⟨⟩⟩ := Option.map_eq_some_iff.mp fires
      cases accepted
      exact ⟨n, c, sent, carried.relayEnqPacket fired⟩
  | relayEnqPacketC =>
      obtain ⟨_, fired, ⟨⟩⟩ := Option.map_eq_some_iff.mp fires
      cases accepted
      exact ⟨n, c, sent, carried.relayEnqPacketC fired⟩
  | startEnqPacket =>
      obtain ⟨_, fired, ⟨⟩⟩ := Option.map_eq_some_iff.mp fires
      cases accepted
      exact ⟨n, c, sent, carried.startEnqPacket fired⟩
  | sendEnqPacket =>
      obtain ⟨_, fired, ⟨⟩⟩ := Option.map_eq_some_iff.mp fires
      cases accepted
      exact ⟨n, c, sent, carried.sendEnqPacket fired⟩
  | sendEnqIdx =>
      obtain ⟨_, fired, ⟨⟩⟩ := Option.map_eq_some_iff.mp fires
      cases accepted
      exact ⟨n + 1, c, sent, carried.sendEnqIdx fired⟩

/-- The rule for the writes of the host, none of which sets the index of the packets. -/
theorem procFC (carried : Carried P m p log n c sent)
    (quiet : ∀ d ∈ m.userWrite1Q.items, d.toffset ≠ 17) (fires : m.procFC = some m')
    : ∃ d, m.userWrite1Q.items = d :: m'.userWrite1Q.items
        ∧ m'.enqReceivedIdx = (if d.toffset = 16 then d.data else m.enqReceivedIdx)
        ∧ m'.enqState = m.enqState
        ∧ Carried P m' p log n c sent := by
  obtain ⟨⟨d, userWrite1Q⟩, taken, fires⟩ := Option.bind_eq_some_iff.mp fires
  have oldest := Fifo.deq_eq_some.mp taken
  have other := quiet d (by simp [oldest])
  obtain ⟨labelled, user, packets⟩ := carried
  simp only [if_neg other] at fires
  split at fires
  next low =>
    obtain ⟨userWriteQ, _, ⟨⟩⟩ := Option.bind_eq_some_iff.mp fires
    have word : d.toffset ≠ 16 := by
      intro same
      rw [same] at low
      exact absurd low (by decide)
    exact ⟨d, oldest, (if_neg word).symm, rfl, labelled, user, packets⟩
  next =>
    split at fires
    next word =>
      cases fires
      exact ⟨d, oldest, (if_pos word).symm, rfl, labelled, user, packets⟩
    next word =>
      cases fires
      exact ⟨d, oldest, (if_neg word).symm, rfl, labelled, user, packets⟩

-----------------------------------------------------------------------------------------
-- Methods and the interface
-----------------------------------------------------------------------------------------

theorem pcie (carried : Carried P m p log n c sent) (moved : P.internal p = some p')
    : Carried P m p' log n c sent := by
  obtain ⟨labelled, ⟨userSent, tag, user⟩, packets⟩ := carried
  exact ⟨labelled, ⟨userSent, tag, user.pcie moved⟩, packets.pcie moved⟩

theorem enq (carried : Carried P m p log n c sent) {head : BitVec 32} {word : BitVec 128}
    (fires : m.enq head word = some m')
    : Carried P m' p { log with enqueued := log.enqueued ++ [(head, word)] } n c sent
      ∧ Advances m m' n n sent sent := by
  obtain ⟨enqcQ, wordPut, fires⟩ := Option.bind_eq_some_iff.mp fires
  obtain ⟨enqchQ, headPut, ⟨⟩⟩ := Option.bind_eq_some_iff.mp fires
  refine ⟨⟨carried.labelled, carried.user, ?_⟩, .same rfl rfl⟩
  have after := carried.packets.enq head word
  simp only [DMAWideCtrl.packetSide, List.append_assoc] at after
  simp only [DMAWideCtrl.packetSide, (Fifo.enq_eq_some.mp wordPut).2,
    (Fifo.enq_eq_some.mp headPut).2, List.append_assoc]
  exact after

theorem deq (carried : Carried P m p log n c sent) {first : BitVec 32 × BitVec 128}
    (fires : m.deq = some (first, m'))
    : Carried P m' p log n c sent ∧ Advances m m' n n sent sent := by
  obtain ⟨⟨word, ioRecvQ⟩, _, fires⟩ := Option.bind_eq_some_iff.mp fires
  obtain ⟨⟨head, ioRecvHQ⟩, _, ⟨⟩⟩ := Option.bind_eq_some_iff.mp fires
  exact ⟨⟨carried.labelled, carried.user, carried.packets⟩, .same rfl rfl⟩

theorem dmaWriteReq (carried : Carried P m p log n c sent) {addr words : BitVec 32}
    {tag : BitVec 8} (within : addr.toNat + 1024 * 4 + 32 * words.toNat ≤ 2 ^ 32)
    (matched
      : PacketLog.Matched (log.requested ++ List.replicate (2 * words.toNat) tag) log.supplied)
    (fires : m.dmaWriteReq addr words tag = some m')
    : Carried P m' p
        { log with requested := log.requested ++ List.replicate (2 * words.toNat) tag } n c sent
      ∧ Advances m m' n n sent sent := by
  have user := @DMAWideCtrl.userInv_dmaWriteReq P m m' p
  refine carried.of_user ?_ rfl (fun _ _ inv => user inv within matched fires)
  obtain ⟨writeReqQ, _, ⟨⟩⟩ := Option.bind_eq_some_iff.mp fires
  exact ⟨rfl, rfl, rfl, rfl⟩

theorem dmaWriteData (carried : Carried P m p log n c sent) {data : BitVec 256} {tag : BitVec 8}
    (matched : PacketLog.Matched log.requested (log.supplied ++ [tag, tag]))
    (fires : m.dmaWriteData data tag = some m')
    : Carried P m' p { log with supplied := log.supplied ++ [tag, tag] } n c sent
      ∧ Advances m m' n n sent sent := by
  have user := @DMAWideCtrl.userInv_dmaWriteData P m m' p
  refine carried.of_user ?_ rfl (fun _ _ inv => user inv matched fires)
  obtain ⟨dmaWritecQ, _, ⟨⟩⟩ := Option.bind_eq_some_iff.mp fires
  exact ⟨rfl, rfl, rfl, rfl⟩

end Carried

end BluespecPcie

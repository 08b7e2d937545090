import BluespecPcie.MergeProgress
import BluespecPcie.PcieCtrl.Completions
import BluespecPcie.PcieCtrl.PageLookup
import BluespecPcie.PcieCtrl.TagConservation
import BluespecPcie.PcieCtrl.WriteProgress

/-! The transmit side never locks up: from every state its own rules send what there is to send, and
stop only where the oldest write burst waits for the user's data.
-/

namespace BluespecPcie

open Bluespec

-----------------------------------------------------------------------------------------
-- The rules and the work they have left
-----------------------------------------------------------------------------------------

/-- The engine's own rules between the DMA requests and the PCIe core. -/
def TransmitRule (_ : PcieCtrl) : Event → Prop
  | .insertFreeTag | .relayFreeWriteTag | .splitDmaWriteReq | .splitDmaWriteReq2
  | .relayBufIdxRead | .generateDmaReadTLP | .generateHeaderTLP | .generateDataTLP
  | .relayUserSendTLP | .sendTLPmRule _ | .relayTLPm | .relayTLP => True
  | _ => False

namespace PcieCtrl

/-- The work of the transmit rules, so weighted that each of them leaves less of it: a word that is
requested costs more than the words of its page request, and these more than their beats.
-/
def transmitWork (s : PcieCtrl) : Nat :=
  2 * (128 - s.tags.freeTagCnt.toNat) + s.tags.freeWriteTagQ.items.length
    + (s.writes.dmaWriteReqQ.items.map (fun req => 1 + 8 * req.words.toNat)).sum
    + 8 * s.writes.dmaSendWords.toNat
    + (s.writes.dmaPageWriteReqQ.items.map (fun req => 2 + 4 * req.words.toNat)).sum
    + 4 * s.writes.dataWordsRemain.toNat
    + s.pages.bufidxRequestedWriteQ.items.length
    + 8 * s.reads.dmaPageReadReqQ.items.length + 8 * s.tx.userSendTLPQ.items.length
    + s.tx.sendTLPm.hops 1 + s.tx.sendTLPQ.items.length

/-- No DMA request is on its way to its TLPs. -/
def RequestsDone (s : PcieCtrl) : Prop :=
  s.writes.dmaWriteReqQ.items = []
  ∧ s.writes.dmaSendWords = 0
  ∧ s.writes.dmaPageWriteReqQ.items = []
  ∧ s.reads.dmaPageReadReqQ.items = []

/-- The user has supplied fewer words than the oldest write burst needs, and can supply more. The
words are taken in order, so those of no other burst are there.
-/
def AwaitsData (s : PcieCtrl) : Prop :=
  (∃ req, s.writes.dmaPageWriteReqQ.first = some req
    ∧ (s.writes.dmaWriteWordIn - s.writes.dmaWriteWordOut).toNat < req.words.toNat)
  ∧ s.writes.dmaWriteWordQ.items.length < 8

/-- Every TLP handed over is sent, no burst is being sent, and no read has its page. A page that
is looked up is that of a write for whose bus address there is no room. Either all requests are
done, or the oldest write burst awaits its data.
-/
structure TransmitSettled (s : PcieCtrl) : Prop where
  sent : s.TransmitDrained
  idle : s.writes.dataWordsRemain = 0
  reads : s.pages.dmaReadBufAddrQ.items = []
  lookups
    : ∀ write, s.pages.bufidxRequestedWriteQ.first = some write →
        write = true ∧ s.pages.dmaWriteBufAddrQ.items.length = 2
  requests : s.RequestsDone ∨ s.AwaitsData

end PcieCtrl

-----------------------------------------------------------------------------------------
-- What is kept
-----------------------------------------------------------------------------------------

/-- The page requests of one direction. -/
def PcieCtrl.pageReqs (s : PcieCtrl) (write : Bool) : List DMAReq :=
  if write then s.writes.dmaPageWriteReqQ.items else s.reads.dmaPageReadReqQ.items

/-- What is kept of the transmit side: the write path, a bus address for each page request, and the
ports of the merge tree.
-/
structure TransmitKept (s : PcieCtrl) : Prop where
  writes : WritePathKept s
  paired : s.pages.LookupsPaired
  looked : ∀ write, (s.pageReqs write).length = (s.pages.busAddrs write).length
  ports : s.tx.sendTLPm.HasPorts 8

section Steps

variable {s s' : PcieCtrl}

theorem transmitKept_reset (p : PowerUp) : TransmitKept (mkPcieCtrl p) :=
  ⟨writePathKept_reset p, rfl, fun write => by cases write <;> rfl,
    MergeN.hasPorts_mkMergeN (by decide)⟩

open PcieCtrl in
/-- Page requests come with a lookup and go with its bus address. -/
theorem pageReqs_step (write : Bool) {e : Event} (fires : s.step e = some s')
    : (s.pageReqs write).length + (s.lookedUp write e).length
      = (s.busUsed write e).length + (s'.pageReqs write).length := by
  have same := step_unchanged fires
  cases e
  case splitDmaWriteReq2 =>
    obtain ⟨_, _, _, _, _, _, _, _, _, put, _, _, rfl⟩ := splitDmaWriteReq2_cases fires
    cases write
    · simp [pageReqs, lookedUp, busUsed]
    · simp [pageReqs, lookedUp, busUsed, put]
  case generateHeaderTLP =>
    obtain ⟨_, _, _, _, _, _, _, _, _, taken, takenAddr, _, _, rfl⟩ :=
      generateHeaderTLP_cases fires
    cases write
    · simp [pageReqs, lookedUp, busUsed]
    · simp [pageReqs, lookedUp, busUsed, PageTable.bufAddrs, taken, takenAddr, Nat.add_comm]
  case splitDmaReadReq2 =>
    obtain ⟨_, _, _, _, _, _, _, put, _, _, rfl⟩ := splitDmaReadReq2_cases fires
    cases write
    · simp [pageReqs, lookedUp, busUsed, put]
    · simp [pageReqs, lookedUp, busUsed]
  case generateDmaReadTLP =>
    obtain ⟨_, _, _, _, _, _, taken, takenAddr, _, _, rfl⟩ := generateDmaReadTLP_cases fires
    cases write
    · simp [pageReqs, lookedUp, busUsed, PageTable.bufAddrs, taken, takenAddr, Nat.add_comm]
    · simp [pageReqs, lookedUp, busUsed]
  case dmaWriteReq addr words =>
    obtain ⟨_, _, rfl⟩ := dmaWriteReq_cases fires
    exact Nat.add_comm _ _
  case dmaWriteData data =>
    obtain ⟨_, _, rfl⟩ := dmaWriteData_cases fires
    exact Nat.add_comm _ _
  case splitDmaWriteReq =>
    obtain ⟨_, _, _, _, rfl⟩ := splitDmaWriteReq_cases fires
    exact Nat.add_comm _ _
  case relayFreeWriteTag =>
    obtain ⟨_, _, _, _, _, rfl⟩ := relayFreeWriteTag_cases fires
    exact Nat.add_comm _ _
  case generateDataTLP =>
    obtain ⟨_, _, _, _, _, _, rfl⟩ | ⟨_, _, _, _, _, _, _, _, _, rfl⟩ :=
      generateDataTLP_cases fires
    all_goals exact Nat.add_comm _ _
  case dmaReadReq addr words =>
    obtain ⟨_, _, ⟨⟩⟩ := Option.bind_eq_some_iff.mp fires
    exact Nat.add_comm _ _
  case splitDmaReadReq =>
    obtain ⟨_, _, _, _, rfl⟩ := splitDmaReadReq_cases fires
    exact Nat.add_comm _ _
  all_goals
    have writes := same.writes (by simp [Event.parts])
    have reads := same.reads (by simp [Event.parts])
    simp [pageReqs, lookedUp, busUsed, writes, reads]

open PcieCtrl in
/-- Events keep the ports of the merge tree. -/
theorem sendTLPm_hasPorts {e : Event} (ports : s.tx.sendTLPm.HasPorts 8)
    (fires : s.step e = some s')
    : s'.tx.sendTLPm.HasPorts 8 := by
  have same := step_unchanged fires
  cases e
  case filterStatReadTLP =>
    obtain ⟨_, _, _, _, _, _, _, ⟨_, sendTLPm, _, _, entered, rfl⟩ | ⟨_, _, _, _, rfl⟩
      | ⟨_, _, _, _, _, _, rfl⟩⟩ := filterStatReadTLP_cases fires
    · exact ports.enq entered
    all_goals exact ports
  case completeIORead =>
    simp only [step, completeIORead, Option.bind_eq_bind, Option.pure_def,
      Fifo.bind_deq_eq_some, Bram2.bind_getA_eq_some] at fires
    obtain ⟨_, _, _, _, _, _, fires⟩ := fires
    obtain ⟨sendTLPm, entered, ⟨⟩⟩ := Option.bind_eq_some_iff.mp fires
    exact ports.enq entered
  case procIOWrite =>
    obtain ⟨tlp, _, sendTLPm, _, answer, ⟨_, rfl⟩ | ⟨_, _, rfl⟩ | ⟨_, _, _, _, rfl⟩⟩ :=
      procIOWrite_cases fires
    all_goals
      by_cases io : tlpType tlp = type_wr32_io
      · rw [if_pos io] at answer
        exact ports.enq answer
      · rw [if_neg io] at answer
        exact answer ▸ ports
  case generateDmaReadTLP =>
    obtain ⟨_, _, _, _, _, _, _, _, _, entered, rfl⟩ := generateDmaReadTLP_cases fires
    exact ports.enq entered
  case generateHeaderTLP =>
    obtain ⟨_, _, _, _, _, _, _, _, _, _, _, _, _, rfl⟩ := generateHeaderTLP_cases fires
    exact ports
  case generateDataTLP =>
    obtain ⟨_, _, _, _, _, _, rfl⟩ | ⟨_, _, _, _, _, _, _, _, _, rfl⟩ :=
      generateDataTLP_cases fires
    all_goals exact ports
  case relayTLPm =>
    obtain ⟨_, _, _, _, taken, _, rfl⟩ := relayTLPm_cases fires
    exact ports.deq taken
  case relayTLP =>
    obtain ⟨⟨_, _⟩, sent, ⟨⟩⟩ := Option.map_eq_some_iff.mp fires
    obtain ⟨_, _, ⟨⟩⟩ := Option.bind_eq_some_iff.mp sent
    exact ports
  case relayUserSendTLP =>
    obtain ⟨_, _, rest⟩ := Option.bind_eq_some_iff.mp fires
    obtain ⟨_, entered, ⟨⟩⟩ := Option.bind_eq_some_iff.mp rest
    exact ports.enq entered
  case dataSend ioreq data =>
    obtain ⟨_, _, ⟨⟩⟩ := Option.bind_eq_some_iff.mp fires
    exact ports
  case sendTLPmRule rule =>
    obtain ⟨_, moved, ⟨⟩⟩ := Option.bind_eq_some_iff.mp fires
    exact ports.fire moved
  all_goals
    rw [same.tx (by simp [Event.parts])]
    exact ports

theorem TransmitKept.step {e : Event} (kept : TransmitKept s) (fires : s.step e = some s')
    : TransmitKept s' := by
  obtain ⟨writes, paired, looked, ports⟩ := kept
  obtain ⟨paired', moved⟩ := busAddrs_step paired fires
  refine ⟨writes.step fires, paired', ?_, sendTLPm_hasPorts ports fires⟩
  intro write
  have addrs := congrArg List.length (moved write)
  have reqs := pageReqs_step write fires
  have before := looked write
  rw [List.length_append, List.length_append] at addrs
  omega

-----------------------------------------------------------------------------------------
-- Every rule leaves less work
-----------------------------------------------------------------------------------------

/-- A TLP that enters the merge tree has no more than seven hops in front of it. -/
theorem enq_sendTLPm {t t' : MergeN SendTLP} {i : Nat} {tlp : SendTLP}
    (ports : t.HasPorts 8) (entered : t.enq 8 i tlp = some t')
    : t'.hops 1 ≤ t.hops 1 + 7 := by
  have depth : t.depth = 6 := by
    rw [ports.depth_eq (MergeN.hasPorts_mkMergeN (by decide)), mkMergeN_eight]
    rfl
  have hops := MergeN.enq_hops entered 1
  omega

open PcieCtrl in
/-- A transmit rule never adds work, and only in the merge tree may it leave as much. -/
theorem transmitWork_lowers {e : Event} (kept : TransmitKept s) (rule : TransmitRule s e)
    (fires : s.step e = some s')
    : s'.transmitWork ≤ s.transmitWork
      ∧ ((∀ r, e ≠ .sendTLPmRule r) → s'.transmitWork < s.transmitWork) := by
  have strict (less : s'.transmitWork < s.transmitWork)
      : s'.transmitWork ≤ s.transmitWork
        ∧ ((∀ r, e ≠ .sendTLPmRule r) → s'.transmitWork < s.transmitWork) :=
    ⟨Nat.le_of_lt less, fun _ => less⟩
  cases e
  case insertFreeTag =>
    obtain ⟨more, _, freeWriteTagQ, _, put, rfl⟩ := insertFreeTag_cases fires
    refine strict ?_
    obtain ⟨current, flow⟩ := kept.writes.tags
    have few := flow.few
    have below : s.tags.freeTagCnt.toNat < 128 := by bv_omega
    have next : (s.tags.freeTagCnt + 1).toNat = s.tags.freeTagCnt.toNat + 1 := by bv_omega
    simp only [transmitWork, put, next, List.length_append, List.length_singleton]
    omega
  case relayFreeWriteTag =>
    obtain ⟨_, _, _, taken, _, rfl⟩ := relayFreeWriteTag_cases fires
    refine strict ?_
    simp only [transmitWork, taken, List.length_cons]
    omega
  case splitDmaWriteReq =>
    obtain ⟨idle, req, _, taken, rfl⟩ := splitDmaWriteReq_cases fires
    refine strict ?_
    simp only [transmitWork, taken, idle, List.map_cons, List.sum_cons]
    simp only [BitVec.ofNat_eq_ofNat, BitVec.toNat_ofNat]
    omega
  case splitDmaWriteReq2 =>
    obtain ⟨busy, _, _, _, _, _, _, _, _, put, asked, _, rfl⟩ := splitDmaWriteReq2_cases fires
    have covers := splitRead_covers kept.writes.sized.aligned busy
    rw [← splitWrite_eq] at covers
    have total := covers.total
    have some := covers.nonempty
    refine strict ?_
    simp only [transmitWork, put, asked, List.map_append, List.sum_append, List.length_append,
      List.map_singleton, List.sum_singleton, List.length_singleton]
    omega
  case relayBufIdxRead =>
    obtain ⟨_, _, _, _, _, asked, ⟨_, _, _, rfl⟩ | ⟨_, _, _, rfl⟩⟩ := relayBufIdxRead_cases fires
    all_goals
      refine strict ?_
      simp only [transmitWork, asked, List.length_cons]
      omega
  case generateDmaReadTLP =>
    obtain ⟨_, _, _, _, _, sendTLPm, taken, _, _, entered, rfl⟩ := generateDmaReadTLP_cases fires
    have hops := enq_sendTLPm kept.ports entered
    refine strict ?_
    simp only [transmitWork, taken, List.length_cons]
    omega
  case generateHeaderTLP =>
    obtain ⟨idle, req, _, _, _, _, _, _, _, taken, _, _, put, rfl⟩ := generateHeaderTLP_cases fires
    refine strict ?_
    simp only [transmitWork, taken, put, idle, List.map_cons, List.sum_cons, List.length_append,
      List.length_singleton]
    simp only [BitVec.ofNat_eq_ofNat, BitVec.toNat_ofNat]
    omega
  case generateDataTLP =>
    rcases generateDataTLP_cases fires with ⟨more, _, _, _, _, put, rfl⟩
      | ⟨busy, final, _, _, _, _, _, freed, put, rfl⟩
    · have less : (s.writes.dataWordsRemain - 1).toNat + 1 = s.writes.dataWordsRemain.toNat := by
        bv_omega
      refine strict ?_
      simp only [transmitWork, put, List.length_append, List.length_singleton]
      omega
    · have less : (s.writes.dataWordsRemain - 1).toNat + 1 = s.writes.dataWordsRemain.toNat := by
        bv_omega
      refine strict ?_
      simp only [transmitWork, put, freed, List.length_append, List.length_singleton]
      omega
  case relayUserSendTLP =>
    obtain ⟨⟨tlp, userSendTLPQ⟩, taken, rest⟩ := Option.bind_eq_some_iff.mp fires
    obtain ⟨sendTLPm, entered, ⟨⟩⟩ := Option.bind_eq_some_iff.mp rest
    have hops := enq_sendTLPm kept.ports entered
    have items := Fifo.deq_eq_some.mp taken
    refine strict ?_
    simp only [transmitWork, items, List.length_cons]
    omega
  case sendTLPmRule inner =>
    obtain ⟨sendTLPm, moved, ⟨⟩⟩ := Option.bind_eq_some_iff.mp fires
    have hops := MergeN.fire_hops moved 1
    refine ⟨?_, fun other => absurd rfl (other inner)⟩
    simp only [transmitWork]
    omega
  case relayTLPm =>
    obtain ⟨_, _, sendTLPm, _, taken, put, rfl⟩ := relayTLPm_cases fires
    have hops := MergeN.deq_hops taken 1
    refine strict ?_
    simp only [transmitWork, put, List.length_append, List.length_singleton]
    omega
  case relayTLP =>
    obtain ⟨⟨tlp, after⟩, sent, ⟨⟩⟩ := Option.map_eq_some_iff.mp fires
    obtain ⟨⟨_, sendTLPQ⟩, taken, ⟨⟩⟩ := Option.bind_eq_some_iff.mp sent
    have items := Fifo.deq_eq_some.mp taken
    refine strict ?_
    simp only [transmitWork, items, List.length_cons]
    omega
  all_goals cases rule

end Steps

-----------------------------------------------------------------------------------------
-- Where no rule moves anything
-----------------------------------------------------------------------------------------

/-- No transmit rule moves anything. -/
structure TransmitStuck (s : PcieCtrl) : Prop where
  rules : ∀ e, TransmitRule s e → (∀ r, e ≠ .sendTLPmRule r) → s.step e = none
  tree
    : ∀ rule t', s.tx.sendTLPm.fire rule = some t' → ¬t'.hops 1 < s.tx.sendTLPm.hops 1

section Stuck

variable {s : PcieCtrl} {log : TagLog}

/-- Nothing waits in the send queue. -/
theorem TransmitStuck.sent (stuck : TransmitStuck s) : s.tx.sendTLPQ.items = [] := by
  cases items : s.tx.sendTLPQ.items with
  | nil => rfl
  | cons tlp rest =>
      obtain ⟨sendTLPQ, taken, -⟩ := Fifo.deq_of_items items
      have none := stuck.rules .relayTLP trivial (fun _ => Event.noConfusion)
      rw [PcieCtrl.step, PcieCtrl.relayTLP, taken] at none
      cases none

/-- No write burst is under way. -/
theorem TransmitStuck.idle (stuck : TransmitStuck s) (kept : WritePathKept s)
    : s.writes.dataWordsRemain = 0 := by
  by_contra busy
  obtain ⟨s', fires⟩ := kept.goesOn busy (by rw [stuck.sent]; decide)
  have none := stuck.rules .generateDataTLP trivial (fun _ => Event.noConfusion)
  rw [PcieCtrl.step, fires] at none
  cases none

/-- Nothing is in the merge tree. -/
theorem TransmitStuck.merged (stuck : TransmitStuck s) (kept : WritePathKept s)
    : s.tx.sendTLPm.items = [] := by
  have out : s.tx.sendTLPm.output = [] := by
    cases head : s.tx.sendTLPm.output with
    | nil => rfl
    | cons tlp rest =>
        obtain ⟨sendTLPm, taken⟩ := MergeN.deq_of_output head
        obtain ⟨sendTLPQ, put⟩ := Fifo.enq_of_room (q := s.tx.sendTLPQ)
          (by rw [stuck.sent]; decide) tlp
        have none := stuck.rules .relayTLPm trivial (fun _ => Event.noConfusion)
        rw [PcieCtrl.step, PcieCtrl.relayTLPm, if_pos (stuck.idle kept), taken] at none
        simp only [Option.bind_eq_bind, Option.bind_some, put, Option.pure_def] at none
        cases none
  by_contra some
  obtain ⟨rule, t', fires, fewer⟩ := MergeN.fire_moves out some 1
  exact stuck.tree rule t' fires fewer

/-- The merge tree takes a TLP at each port. -/
theorem TransmitStuck.room (stuck : TransmitStuck s) (kept : TransmitKept s) {i : Nat}
    (port : i < 8) (tlp : SendTLP)
    : ∃ sendTLPm, s.tx.sendTLPm.enq 8 i tlp = some sendTLPm :=
  kept.ports.enq_of_empty port (stuck.merged kept.writes) tlp

/-- No completion of the user waits. -/
theorem TransmitStuck.user (stuck : TransmitStuck s) (kept : TransmitKept s)
    : s.tx.userSendTLPQ.items = [] := by
  cases items : s.tx.userSendTLPQ.items with
  | nil => rfl
  | cons tlp rest =>
      obtain ⟨userSendTLPQ, taken, -⟩ := Fifo.deq_of_items items
      obtain ⟨sendTLPm, entered⟩ := stuck.room kept (i := 5) (by decide) tlp
      have none := stuck.rules .relayUserSendTLP trivial (fun _ => Event.noConfusion)
      rw [PcieCtrl.step, PcieCtrl.relayUserSendTLP, taken] at none
      simp only [Option.bind_eq_bind, Option.bind_some, entered, Option.pure_def] at none
      cases none

/-- A bus address that is queued has its page request. -/
theorem TransmitKept.request (kept : TransmitKept s) (write : Bool) {addr : BitVec 32}
    {addrs : List (BitVec 32)} (items : s.pages.bufAddrs write = addr :: addrs)
    : ∃ req reqs, s.pageReqs write = req :: reqs := by
  refine List.exists_cons_of_length_pos ?_
  rw [kept.looked write, PageTable.busAddrs, items, List.cons_append, List.length_cons]
  exact Nat.succ_pos _

/-- No bus address of a read waits. -/
theorem TransmitStuck.readAddrs (stuck : TransmitStuck s) (kept : TransmitKept s)
    (flow : TagFlow s log)
    : s.pages.dmaReadBufAddrQ.items = [] := by
  cases items : s.pages.dmaReadBufAddrQ.items with
  | nil => rfl
  | cons addr addrs =>
      obtain ⟨req, reqs, waiting⟩ := kept.request false items
      obtain ⟨dmaReadBufAddrQ, takenAddr, -⟩ := Fifo.deq_of_items items
      obtain ⟨dmaPageReadReqQ, taken, -⟩ :=
        Fifo.deq_of_items (show s.reads.dmaPageReadReqQ.items = req :: reqs from waiting)
      -- The tags in line are among those inserted, and `req` has one of them.
      have line : s.order.dmaReadTagOrderQ.items.length < 128 := by
        have total := flow.pool.length_eq
        have few := flow.few
        rw [PcieCtrl.unretiredTags, firstTags, List.length_map, List.length_range] at total
        simp only [List.length_append, List.length_map,
          show s.reads.dmaPageReadReqQ.items = req :: reqs from waiting, List.length_cons] at total
        omega
      obtain ⟨dmaReadTagOrderQ, put⟩ := Fifo.enq_of_room line req.tag
      obtain ⟨sendTLPm, entered⟩ := stuck.room kept (i := 3) (by decide) (s.readRequestOf req addr)
      have none := stuck.rules .generateDmaReadTLP trivial (fun _ => Event.noConfusion)
      rw [PcieCtrl.step, PcieCtrl.generateDmaReadTLP, taken] at none
      simp only [Option.bind_eq_bind, Option.bind_some, takenAddr, put, entered,
        Option.pure_def] at none
      cases none

/-- Unless the user's data is awaited, no bus address of a write waits. -/
theorem TransmitStuck.writeAddrs (stuck : TransmitStuck s) (kept : TransmitKept s)
    (supplied : ¬s.AwaitsData)
    : s.pages.dmaWriteBufAddrQ.items = [] := by
  cases items : s.pages.dmaWriteBufAddrQ.items with
  | nil => rfl
  | cons addr addrs =>
      obtain ⟨req, reqs, waiting⟩ := kept.request true items
      have head : s.writes.dmaPageWriteReqQ.items = req :: reqs := waiting
      obtain ⟨dmaWriteBufAddrQ, takenAddr, -⟩ := Fifo.deq_of_items items
      obtain ⟨dmaPageWriteReqQ, taken, -⟩ := Fifo.deq_of_items head
      obtain ⟨positive, few⟩ := kept.writes.sized.sized req (by simp [head])
      have idle := stuck.idle kept.writes
      have queued := kept.writes.supplied
      rw [idle] at queued
      have enough
          : req.words.toNat ≤ (s.writes.dmaWriteWordIn - s.writes.dmaWriteWordOut).toNat := by
        by_contra short
        have first : s.writes.dmaPageWriteReqQ.first = some req :=
          Fifo.first_eq_some.mpr ⟨reqs, head⟩
        refine supplied ⟨⟨req, first, Nat.lt_of_not_le short⟩, ?_⟩
        simp only [BitVec.ofNat_eq_ofNat, BitVec.toNat_ofNat] at queued
        omega
      obtain ⟨data, words, first⟩ := List.exists_cons_of_length_pos
        (show 0 < s.writes.dmaWriteWordQ.items.length by omega)
      obtain ⟨dmaWriteWordQ, takenData, -⟩ := Fifo.deq_of_items first
      obtain ⟨sendTLPQ, put⟩ := Fifo.enq_of_room (q := s.tx.sendTLPQ)
        (by rw [stuck.sent]; decide) (s.writeHeaderOf req addr data)
      have none := stuck.rules .generateHeaderTLP trivial (fun _ => Event.noConfusion)
      rw [PcieCtrl.step, PcieCtrl.generateHeaderTLP, taken] at none
      simp only [Option.bind_eq_bind, Option.bind_some, if_pos (And.intro idle
        (BitVec.le_def.mpr enough)), takenAddr, takenData, put, Option.pure_def] at none
      cases none

/-- A lookup waits only for room for the bus address of a write. -/
theorem TransmitStuck.blocked (stuck : TransmitStuck s) (kept : TransmitKept s)
    (flow : TagFlow s log) {write : Bool}
    (first : s.pages.bufidxRequestedWriteQ.first = some write)
    : write = true ∧ s.pages.dmaWriteBufAddrQ.items.length = 2 := by
  obtain ⟨rest, items⟩ := Fifo.first_eq_some.mp first
  have responses : 0 < s.pages.configBuffer.respB.items.length := by
    rw [← kept.paired, items, List.length_cons]
    exact Nat.succ_pos _
  obtain ⟨addr, addrs, response⟩ := List.exists_cons_of_length_pos responses
  obtain ⟨bufidxRequestedWriteQ, taken, -⟩ := Fifo.deq_of_items items
  obtain ⟨respB, got, -⟩ := Fifo.deq_of_items response
  have none := stuck.rules .relayBufIdxRead trivial (fun _ => Event.noConfusion)
  rw [PcieCtrl.step, PcieCtrl.relayBufIdxRead] at none
  cases write with
  | false =>
      obtain ⟨dmaReadBufAddrQ, putRead⟩ := Fifo.enq_of_room (q := s.pages.dmaReadBufAddrQ)
        (by rw [stuck.readAddrs kept flow]; decide) addr
      simp [Bram2.getB, got, taken, putRead] at none
  | true =>
      refine ⟨rfl, ?_⟩
      have most := s.pages.dmaWriteBufAddrQ.bounded
      by_contra notFull
      obtain ⟨dmaWriteBufAddrQ, putWrite⟩ := Fifo.enq_of_room (q := s.pages.dmaWriteBufAddrQ)
        (show s.pages.dmaWriteBufAddrQ.items.length < 2 by omega) addr
      simp [Bram2.getB, got, taken, putWrite] at none

/-- Unless the user's data is awaited, no lookup is under way. -/
theorem TransmitStuck.lookups (stuck : TransmitStuck s) (kept : TransmitKept s)
    (flow : TagFlow s log) (supplied : ¬s.AwaitsData)
    : s.pages.bufidxRequestedWriteQ.items = [] := by
  cases items : s.pages.bufidxRequestedWriteQ.items with
  | nil => rfl
  | cons write rest =>
      have full := (stuck.blocked kept flow (Fifo.first_eq_some.mpr ⟨rest, items⟩)).2
      rw [stuck.writeAddrs kept supplied] at full
      cases full

/-- Unless the user's data is awaited, no page request waits. -/
theorem TransmitStuck.requests (stuck : TransmitStuck s) (kept : TransmitKept s)
    (flow : TagFlow s log) (supplied : ¬s.AwaitsData) (write : Bool)
    : s.pageReqs write = [] := by
  refine List.eq_nil_of_length_eq_zero ?_
  rw [kept.looked write, PageTable.busAddrs, stuck.lookups kept flow supplied, List.zip_nil_left]
  cases write
  · rw [PageTable.bufAddrs, if_neg Bool.false_ne_true, stuck.readAddrs kept flow]
    rfl
  · rw [PageTable.bufAddrs, if_pos rfl, stuck.writeAddrs kept supplied]
    rfl

/-- All tags are inserted. -/
theorem TransmitStuck.inserted (stuck : TransmitStuck s) (kept : TransmitKept s)
    (flow : TagFlow s log)
    : s.tags.freeTagCnt = 128 := by
  by_contra more
  obtain ⟨current, writeFlow⟩ := kept.writes.tags
  have few := flow.few
  have below : s.tags.freeTagCnt.toNat < 128 := by bv_omega
  have total := writeFlow.total
  have pool := flow.pool.length_eq
  rw [firstTags, List.length_map, List.length_range, PcieCtrl.freeTags] at pool
  simp only [List.length_append] at pool
  obtain ⟨freeReadTagQ, put⟩ := Fifo.enq_of_room (q := s.tags.freeReadTagQ)
    (show s.tags.freeReadTagQ.items.length < 128 by omega) s.tags.freeTagCnt
  obtain ⟨freeWriteTagQ, putWrite⟩ := Fifo.enq_of_room (q := s.tags.freeWriteTagQ)
    (show s.tags.freeWriteTagQ.items.length < 128 by omega) (s.tags.freeTagCnt + 128)
  have none := stuck.rules .insertFreeTag trivial (fun _ => Event.noConfusion)
  rw [PcieCtrl.step, PcieCtrl.insertFreeTag, if_pos more, put] at none
  simp only [Option.bind_eq_bind, Option.bind_some, putWrite, Option.pure_def] at none
  cases none

/-- A write tag is staged if no burst has one. -/
theorem TransmitStuck.staged (stuck : TransmitStuck s) (kept : TransmitKept s)
    (flow : TagFlow s log) (free : s.writes.busyWriteTagQ.items = [])
    : ∃ tag tags, s.writes.freeWriteTagStageQ.items = tag :: tags := by
  refine List.exists_cons_of_ne_nil ?_
  intro empty
  obtain ⟨current, writeFlow⟩ := kept.writes.tags
  have total := writeFlow.total
  rw [free, empty, stuck.inserted kept flow, List.length_nil] at total
  have some : 0 < s.tags.freeWriteTagQ.items.length := by
    rw [← Nat.add_zero (List.length _), total]
    decide
  obtain ⟨tag, tags, items⟩ := List.exists_cons_of_length_pos some
  obtain ⟨freeWriteTagQ, taken, -⟩ := Fifo.deq_of_items items
  obtain ⟨freeWriteTagStageQ, put⟩ := Fifo.enq_of_room (q := s.writes.freeWriteTagStageQ)
    (by rw [empty]; decide) tag
  have none := stuck.rules .relayFreeWriteTag trivial (fun _ => Event.noConfusion)
  rw [PcieCtrl.step, PcieCtrl.relayFreeWriteTag, taken] at none
  simp only [Option.bind_eq_bind, Option.bind_some, put, Option.pure_def] at none
  cases none

/-- Unless the user's data is awaited, no write request is being split up. -/
theorem TransmitStuck.split (stuck : TransmitStuck s) (kept : TransmitKept s)
    (flow : TagFlow s log) (supplied : ¬s.AwaitsData)
    : s.writes.dmaSendWords = 0 := by
  by_contra more
  have busy : s.writes.dmaSendWords > 0 := by bv_omega
  have noPages : s.writes.dmaPageWriteReqQ.items = [] := stuck.requests kept flow supplied true
  have noLookups := stuck.lookups kept flow supplied
  have free : s.writes.busyWriteTagQ.items = [] := by
    obtain ⟨current, writeFlow⟩ := kept.writes.tags
    have none := writeFlow.underWay
    rw [if_pos (stuck.idle kept.writes)] at none
    rw [writeFlow.busy, noPages, List.eq_nil_of_length_eq_zero none]
    rfl
  have noResponses : s.pages.configBuffer.respB.items = [] := by
    refine List.eq_nil_of_length_eq_zero ?_
    rw [← kept.paired, noLookups]
    rfl
  obtain ⟨tag, tags, items⟩ := stuck.staged kept flow free
  obtain ⟨freeWriteTagStageQ, taken, -⟩ := Fifo.deq_of_items items
  obtain ⟨busyWriteTagQ, marked⟩ := Fifo.enq_of_room (q := s.writes.busyWriteTagQ)
    (by rw [free]; decide) tag
  obtain ⟨dmaPageWriteReqQ, put⟩ := Fifo.enq_of_room (q := s.writes.dmaPageWriteReqQ)
    (by rw [noPages]; decide)
    { addr := (s.writes.dmaStartAddr.extractLsb 11 0).zeroExtend 32
      words := (splitWrite s.writes.dmaStartAddr s.writes.dmaSendWords).words, tag }
  obtain ⟨bufidxRequestedWriteQ, asked⟩ := Fifo.enq_of_room (q := s.pages.bufidxRequestedWriteQ)
    (by rw [noLookups]; decide) true
  obtain ⟨respB, response⟩ := Fifo.enq_of_room (q := s.pages.configBuffer.respB)
    (by rw [noResponses]; decide) (s.pages.configBuffer.mem (pageEntry s.writes.dmaStartAddr))
  have none := stuck.rules .splitDmaWriteReq2 trivial (fun _ => Event.noConfusion)
  rw [PcieCtrl.step, PcieCtrl.splitDmaWriteReq2, if_pos busy, taken] at none
  simp [marked, put, asked, Bram2.readB, response] at none

/-- Unless the user's data is awaited, no write request waits. -/
theorem TransmitStuck.taken (stuck : TransmitStuck s) (kept : TransmitKept s)
    (flow : TagFlow s log) (supplied : ¬s.AwaitsData)
    : s.writes.dmaWriteReqQ.items = [] := by
  cases items : s.writes.dmaWriteReqQ.items with
  | nil => rfl
  | cons req reqs =>
      obtain ⟨dmaWriteReqQ, taken, -⟩ := Fifo.deq_of_items items
      have none := stuck.rules .splitDmaWriteReq trivial (fun _ => Event.noConfusion)
      rw [PcieCtrl.step, PcieCtrl.splitDmaWriteReq, if_pos (stuck.split kept flow supplied),
        taken] at none
      cases none

/-- Where no rule moves anything, all is sent but what waits for the user's data. -/
theorem TransmitStuck.settled (stuck : TransmitStuck s) (kept : TransmitKept s)
    (flow : TagFlow s log)
    : s.TransmitSettled := by
  refine ⟨⟨stuck.user kept, stuck.merged kept.writes, stuck.sent⟩, stuck.idle kept.writes,
    stuck.readAddrs kept flow, fun _ first => stuck.blocked kept flow first, ?_⟩
  by_cases awaits : s.AwaitsData
  case pos => exact .inr awaits
  case neg =>
    exact .inl ⟨stuck.taken kept flow awaits, stuck.split kept flow awaits,
      stuck.requests kept flow awaits true, stuck.requests kept flow awaits false⟩

end Stuck

-----------------------------------------------------------------------------------------
-- Whole runs
-----------------------------------------------------------------------------------------

/-- The transmit side is settled or moves. -/
theorem TransmitKept.moves {s : PcieCtrl} {log : TagLog} (kept : TransmitKept s)
    (flow : TagFlow s log)
    : s.TransmitSettled ∨ Moves PcieCtrl.step TransmitRule PcieCtrl.transmitWork s := by
  by_cases moves : Moves PcieCtrl.step TransmitRule PcieCtrl.transmitWork s
  case pos => exact .inr moves
  case neg =>
    refine .inl (TransmitStuck.settled ⟨?_, ?_⟩ kept flow)
    · intro e rule notTree
      cases result : s.step e with
      | none => rfl
      | some s' =>
          have less := (transmitWork_lowers kept rule result).2 notTree
          exact absurd ⟨e, s', rule, result, less⟩ moves
    · intro rule t' fires fewer
      refine moves ⟨.sendTLPmRule rule, { s with tx.sendTLPm := t' }, trivial, ?_, ?_⟩
      · rw [PcieCtrl.step, PcieCtrl.sendTLPmRule, fires]
        rfl
      · simp only [PcieCtrl.transmitWork]
        omega

/-- The transmit side gets done: however its rules are scheduled they never add work, and until
everything is settled one of them leaves less of it; so some schedule of them settles everything.
-/
structure TransmitProgress (s : PcieCtrl) : Prop where
  anySchedule
    : ∀ s', Reach PcieCtrl.step TransmitRule s s' →
        s'.transmitWork ≤ s.transmitWork
        ∧ (s'.TransmitSettled ∨ Moves PcieCtrl.step TransmitRule PcieCtrl.transmitWork s')
  drains : ∃ s', Reach PcieCtrl.step TransmitRule s s' ∧ s'.TransmitSettled

section Runs

variable {p : PowerUp}

theorem transmitKept_of_reach {state : PcieCtrl × TagLog}
    (run : Reach (traced PcieCtrl.step TagLog.record) HostAnswers (mkPcieCtrl p, {}) state)
    : TransmitKept state.1 := by
  refine run.invariant (P := fun state => TransmitKept state.1) (transmitKept_reset p) ?_
  intro before e after kept _ fires
  exact kept.step (traced_eq_some.mp fires).1

/-- The host does not take part in a transmit rule. -/
theorem TransmitRule.answers {s : PcieCtrl} {e : Event} (rule : TransmitRule s e) (log : TagLog)
    : HostAnswers (s, log) e := by
  cases e
  case filterStatReadTLP => cases rule
  all_goals trivial

/-- The states of the engine that runs reach. -/
def Reached (p : PowerUp) (s : PcieCtrl) : Prop :=
  ∃ log, Reach (traced PcieCtrl.step TagLog.record) HostAnswers (mkPcieCtrl p, {}) (s, log)

theorem Reached.tail {s s' : PcieCtrl} {e : Event} (reached : Reached p s)
    (rule : TransmitRule s e) (fires : s.step e = some s')
    : Reached p s' := by
  obtain ⟨log, run⟩ := reached
  exact ⟨log.record s e, run.tail (rule.answers log) (traced_eq_some.mpr ⟨fires, rfl⟩)⟩

theorem Reached.moves {s : PcieCtrl} (reached : Reached p s)
    : s.TransmitSettled ∨ Moves PcieCtrl.step TransmitRule PcieCtrl.transmitWork s := by
  obtain ⟨log, run⟩ := reached
  exact (transmitKept_of_reach run).moves (tagsKept_of_reach run).flow

/-- A run of transmit rules adds no work and stays among the states that runs reach; induction on
it.
-/
theorem Reached.later {s s' : PcieCtrl} (reached : Reached p s)
    (later : Reach PcieCtrl.step TransmitRule s s')
    : Reached p s' ∧ s'.transmitWork ≤ s.transmitWork := by
  induction later with
  | refl => exact ⟨reached, Nat.le_refl _⟩
  | tail _ rule fires ih =>
      obtain ⟨mid, less⟩ := ih
      refine ⟨mid.tail rule fires, Nat.le_trans ?_ less⟩
      obtain ⟨log, run⟩ := mid
      exact (transmitWork_lowers (transmitKept_of_reach run) rule fires).1

end Runs

end BluespecPcie

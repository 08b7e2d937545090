import BluespecPcie.PcieCtrl.StatusOrder
import BluespecPcie.PcieCtrl.TagFlow

/-! The write tags, and that a write burst that has started is never held up: its words are there,
and its tag can be given back.
-/

namespace BluespecPcie

open Bluespec

-----------------------------------------------------------------------------------------
-- Write tags
-----------------------------------------------------------------------------------------

/-- The tags for writes: the free ones, those staged, and those of bursts. -/
def PcieCtrl.writeTags (s : PcieCtrl) : List (BitVec 8) :=
  s.tags.freeWriteTagQ.items ++ (s.writes.freeWriteTagStageQ.items ++ s.writes.busyWriteTagQ.items)

/-- The tags for writes from 128 on. -/
def firstWriteTags (n : Nat) : List (BitVec 8) := (firstTags n).map (· + 128)

theorem nodup_firstWriteTags {n : Nat} (few : n ≤ 128) : (firstWriteTags n).Nodup := by
  refine (nodup_firstTags few).map ?_
  intro tag other same
  exact (BitVec.add_left_inj 128).mp same

/-- The write tags inserted are free, staged or with a burst; the bursts have theirs in order, first
the burst under way, which has the tag `current`.
-/
structure WriteTagFlow (s : PcieCtrl) (current : List (BitVec 8)) : Prop where
  few : s.tags.freeTagCnt.toNat ≤ 128
  pool : s.writeTags.Perm (firstWriteTags s.tags.freeTagCnt.toNat)
  busy : s.writes.busyWriteTagQ.items = current ++ s.writes.dmaPageWriteReqQ.items.map DMAReq.tag
  underWay : current.length = if s.writes.dataWordsRemain = 0 then 0 else 1

section Steps

variable {s s' : PcieCtrl} {current : List (BitVec 8)}

/-- After reset there is no tag yet. -/
theorem writeTagFlow_reset (p : PowerUp) : WriteTagFlow (mkPcieCtrl p) [] :=
  ⟨Nat.zero_le _, .refl _, rfl, rfl⟩

/-- What does not concern the write tags keeps them. -/
theorem WriteTagFlow.frame (flow : WriteTagFlow s current)
    (count : s'.tags.freeTagCnt = s.tags.freeTagCnt)
    (free : s'.tags.freeWriteTagQ = s.tags.freeWriteTagQ)
    (stage : s'.writes.freeWriteTagStageQ = s.writes.freeWriteTagStageQ)
    (busy : s'.writes.busyWriteTagQ = s.writes.busyWriteTagQ)
    (pages : s'.writes.dmaPageWriteReqQ = s.writes.dmaPageWriteReqQ)
    (remain : s'.writes.dataWordsRemain = s.writes.dataWordsRemain)
    : WriteTagFlow s' current := by
  obtain ⟨few, pool, inLine, underWay⟩ := flow
  refine ⟨?_, ?_, ?_, ?_⟩
  · rw [count]
    exact few
  · rw [PcieCtrl.writeTags, free, stage, busy, count]
    exact pool
  · rw [busy, pages]
    exact inLine
  · rw [remain]
    exact underWay

/-- The next tag is inserted. -/
theorem WriteTagFlow.insertFreeTag (flow : WriteTagFlow s current)
    (fires : s.insertFreeTag = some s')
    : WriteTagFlow s' current := by
  obtain ⟨more, freeReadTagQ, freeWriteTagQ, -, put, rfl⟩ := PcieCtrl.insertFreeTag_cases fires
  obtain ⟨few, pool, inLine, underWay⟩ := flow
  have below : s.tags.freeTagCnt.toNat < 128 := by bv_omega
  have next : (s.tags.freeTagCnt + 1).toNat = s.tags.freeTagCnt.toNat + 1 := by bv_omega
  refine ⟨?_, ?_, inLine, underWay⟩
  · change (s.tags.freeTagCnt + 1).toNat ≤ 128
    omega
  · have more : firstWriteTags (s.tags.freeTagCnt + 1).toNat
        = firstWriteTags s.tags.freeTagCnt.toNat ++ [s.tags.freeTagCnt + 128] := by
      rw [next, firstWriteTags, firstWriteTags, firstTags, firstTags, List.range_succ,
        List.map_append, List.map_append, List.map_singleton, List.map_singleton,
        BitVec.ofNat_toNat, BitVec.setWidth_eq]
    change (freeWriteTagQ.items
        ++ (s.writes.freeWriteTagStageQ.items ++ s.writes.busyWriteTagQ.items)).Perm
      (firstWriteTags (s.tags.freeTagCnt + 1).toNat)
    rw [put, more, List.append_assoc, List.singleton_append]
    refine List.perm_middle.trans ?_
    exact (List.Perm.cons _ pool).trans (List.perm_append_singleton _ _).symm

/-- A free tag is staged. -/
theorem WriteTagFlow.relayFreeWriteTag (flow : WriteTagFlow s current)
    (fires : s.relayFreeWriteTag = some s')
    : WriteTagFlow s' current := by
  obtain ⟨tag, freeWriteTagQ, freeWriteTagStageQ, taken, put, rfl⟩ :=
    PcieCtrl.relayFreeWriteTag_cases fires
  obtain ⟨few, pool, inLine, underWay⟩ := flow
  refine ⟨few, ?_, inLine, underWay⟩
  refine List.Perm.trans ?_ pool
  change (freeWriteTagQ.items ++ (freeWriteTagStageQ.items ++ s.writes.busyWriteTagQ.items)).Perm _
  rw [PcieCtrl.writeTags, taken, put, List.append_assoc, List.singleton_append, List.cons_append,
    ← List.append_assoc, ← List.append_assoc]
  exact List.perm_middle

/-- The staged tag goes to a burst, the last in line. -/
theorem WriteTagFlow.splitDmaWriteReq2 (flow : WriteTagFlow s current)
    (fires : s.splitDmaWriteReq2 = some s')
    : WriteTagFlow s' current := by
  obtain ⟨_, tag, freeWriteTagStageQ, busyWriteTagQ, dmaPageWriteReqQ, _, _, taken, marked, put,
    _, _, rfl⟩ := PcieCtrl.splitDmaWriteReq2_cases fires
  obtain ⟨few, pool, inLine, underWay⟩ := flow
  refine ⟨few, ?_, ?_, underWay⟩
  · refine List.Perm.trans ?_ pool
    change (s.tags.freeWriteTagQ.items ++ (freeWriteTagStageQ.items ++ busyWriteTagQ.items)).Perm _
    rw [PcieCtrl.writeTags, taken, marked]
    refine List.Perm.append_left _ ?_
    rw [← List.append_assoc]
    exact List.perm_append_singleton _ _
  · change busyWriteTagQ.items = current ++ dmaPageWriteReqQ.items.map DMAReq.tag
    rw [marked, inLine, put, List.map_append, List.map_singleton, List.append_assoc]

/-- The oldest burst starts, with the tag of its page request. -/
theorem WriteTagFlow.generateHeaderTLP (flow : WriteTagFlow s current)
    (sized : PageRequestsSized s) (fires : s.generateHeaderTLP = some s')
    : ∃ current', WriteTagFlow s' current' := by
  obtain ⟨idle, req, dmaPageWriteReqQ, _, _, _, _, _, _, taken, _, _, _, rfl⟩ :=
    PcieCtrl.generateHeaderTLP_cases fires
  obtain ⟨few, pool, inLine, underWay⟩ := flow
  obtain ⟨some, -⟩ := sized.sized req (by simp [taken])
  have none : current = [] := by
    rw [if_pos idle] at underWay
    exact List.eq_nil_of_length_eq_zero underWay
  have busy : req.words ≠ 0 := by
    intro same
    rw [same] at some
    exact absurd some (by decide)
  refine ⟨[req.tag], few, pool, ?_, ?_⟩
  · change s.writes.busyWriteTagQ.items = [req.tag] ++ dmaPageWriteReqQ.items.map DMAReq.tag
    rw [inLine, none, taken]
    rfl
  · exact (if_neg busy).symm

/-- A burst that ends gives back its tag. -/
theorem WriteTagFlow.generateDataTLP (flow : WriteTagFlow s current)
    (fires : s.generateDataTLP = some s')
    : ∃ current', WriteTagFlow s' current' := by
  obtain ⟨few, pool, inLine, underWay⟩ := flow
  rcases PcieCtrl.generateDataTLP_cases fires with ⟨more, _, _, _, _, _, rfl⟩
    | ⟨busy, final, tag, busyWriteTagQ, freeWriteTagQ, _, taken, freed, _, rfl⟩
  case inl =>
    have before : s.writes.dataWordsRemain ≠ 0 := by bv_omega
    have after : s.writes.dataWordsRemain - 1 ≠ 0 := by bv_omega
    refine ⟨current, few, pool, inLine, ?_⟩
    rw [if_neg before] at underWay
    exact underWay.trans (if_neg after).symm
  case inr =>
    have before : s.writes.dataWordsRemain ≠ 0 := by bv_omega
    have after : s.writes.dataWordsRemain - 1 = 0 := by bv_omega
    rw [if_neg before] at underWay
    obtain ⟨mine, rfl⟩ := List.length_eq_one_iff.mp underWay
    rw [inLine, List.singleton_append] at taken
    obtain ⟨rfl, rest⟩ := List.cons.inj taken
    refine ⟨[], few, ?_, rest.symm, (if_pos after).symm⟩
    refine List.Perm.trans ?_ pool
    change (freeWriteTagQ.items
      ++ (s.writes.freeWriteTagStageQ.items ++ busyWriteTagQ.items)).Perm _
    rw [PcieCtrl.writeTags, freed, inLine, ← rest, List.append_assoc, List.singleton_append,
      List.singleton_append]
    refine List.Perm.append_left _ ?_
    exact List.perm_middle.symm

theorem PcieCtrl.flushReadTag_keepsWriteTags (fires : s.flushReadTag = some s')
    : s'.tags.freeTagCnt = s.tags.freeTagCnt ∧ s'.tags.freeWriteTagQ = s.tags.freeWriteTagQ := by
  simp only [PcieCtrl.flushReadTag, Option.bind_eq_bind, Option.pure_def] at fires
  split_ifs at fires
  · simp only [Fifo.bind_deq_eq_some, Bram2.bind_readB_eq_some, Fifo.bind_enq_eq_some,
      Option.some.injEq] at fires
    obtain ⟨_, _, _, _, _, _, _, _, _, rfl⟩ := fires
    exact ⟨rfl, rfl⟩
  · cases fires
    exact ⟨rfl, rfl⟩
  · simp only [Bram2.bind_readB_eq_some, Option.some.injEq] at fires
    obtain ⟨_, _, _, rfl⟩ := fires
    exact ⟨rfl, rfl⟩

/-- Every event keeps the write tags. -/
theorem WriteTagFlow.step {e : Event} (flow : WriteTagFlow s current) (sized : PageRequestsSized s)
    (fires : s.step e = some s')
    : ∃ current', WriteTagFlow s' current' := by
  have same := step_unchanged fires
  cases e with
  | insertFreeTag => exact ⟨current, flow.insertFreeTag fires⟩
  | relayFreeWriteTag => exact ⟨current, flow.relayFreeWriteTag fires⟩
  | splitDmaWriteReq2 => exact ⟨current, flow.splitDmaWriteReq2 fires⟩
  | generateHeaderTLP => exact flow.generateHeaderTLP sized fires
  | generateDataTLP => exact flow.generateDataTLP fires
  | relayFreeReadTag =>
      simp only [PcieCtrl.step, PcieCtrl.relayFreeReadTag, Option.bind_eq_bind, Option.pure_def,
        Fifo.bind_deq_eq_some, Fifo.bind_enq_eq_some, Option.some.injEq] at fires
      obtain ⟨_, _, _, _, _, _, rfl⟩ := fires
      exact ⟨current, flow.frame rfl rfl rfl rfl rfl rfl⟩
  | splitDmaReadReq2 =>
      obtain ⟨_, _, _, _, _, _, _, _, _, _, rfl⟩ := PcieCtrl.splitDmaReadReq2_cases fires
      exact ⟨current, flow.frame rfl rfl rfl rfl rfl rfl⟩
  | flushReadTag =>
      obtain ⟨count, free⟩ := PcieCtrl.flushReadTag_keepsWriteTags fires
      have writes := same.writes (by decide)
      exact ⟨current, flow.frame count free (by rw [writes]) (by rw [writes]) (by rw [writes])
        (by rw [writes])⟩
  | dmaWriteReq addr words =>
      obtain ⟨_, _, rfl⟩ := PcieCtrl.dmaWriteReq_cases fires
      exact ⟨current, flow.frame rfl rfl rfl rfl rfl rfl⟩
  | dmaWriteData data =>
      obtain ⟨_, _, rfl⟩ := PcieCtrl.dmaWriteData_cases fires
      exact ⟨current, flow.frame rfl rfl rfl rfl rfl rfl⟩
  | splitDmaWriteReq =>
      obtain ⟨_, _, _, _, rfl⟩ := PcieCtrl.splitDmaWriteReq_cases fires
      exact ⟨current, flow.frame rfl rfl rfl rfl rfl rfl⟩
  | _ =>
      have tags := same.tags (by simp [Event.parts])
      have writes := same.writes (by simp [Event.parts])
      exact ⟨current, flow.frame (by rw [tags]) (by rw [tags]) (by rw [writes]) (by rw [writes])
        (by rw [writes]) (by rw [writes])⟩

end Steps

-----------------------------------------------------------------------------------------
-- Bursts that have started
-----------------------------------------------------------------------------------------

/-- What is kept of the write path: its page requests, its tags and its words. -/
structure WritePathKept (s : PcieCtrl) : Prop where
  sized : PageRequestsSized s
  tags : ∃ current, WriteTagFlow s current
  words : ∃ requested supplied claimed, WordsCounted s requested supplied claimed

theorem writePathKept_reset (p : PowerUp) : WritePathKept (mkPcieCtrl p) :=
  ⟨.init p, ⟨[], writeTagFlow_reset p⟩, 0, 0, 0, rfl, Nat.le_refl _, rfl, rfl, rfl⟩

theorem WritePathKept.step {s s' : PcieCtrl} {e : Event} (kept : WritePathKept s)
    (fires : s.step e = some s')
    : WritePathKept s' := by
  obtain ⟨sized, ⟨current, flow⟩, requested, supplied, claimed, counted⟩ := kept
  let log : StatusLog := ⟨.start, requested, supplied, []⟩
  have words := WordsCounted.step (show WordsCounted s log.requested log.supplied claimed from
    counted) sized fires
  exact ⟨sized.step fires, flow.step sized fires, _, _, _, words⟩

/-- The words that a burst has still to send, but for the one in its carry register, are queued. -/
theorem WritePathKept.supplied {s : PcieCtrl} (kept : WritePathKept s)
    : s.writes.dmaWriteWordQ.items.length
      = (s.writes.dmaWriteWordIn - s.writes.dmaWriteWordOut).toNat
        + (s.writes.dataWordsRemain.toNat - 1) := by
  obtain ⟨_, _, requested, supplied, claimed, counted⟩ := kept
  have available := counted.available
  have queued := counted.queued
  have covered := counted.covered
  omega

/-- The tags of bursts and the free ones are no more than were inserted. -/
theorem WriteTagFlow.total {s : PcieCtrl} {current : List (BitVec 8)}
    (flow : WriteTagFlow s current)
    : s.tags.freeWriteTagQ.items.length
        + (s.writes.freeWriteTagStageQ.items.length + s.writes.busyWriteTagQ.items.length)
      = s.tags.freeTagCnt.toNat := by
  have lengths := flow.pool.length_eq
  rwa [PcieCtrl.writeTags, List.length_append, List.length_append, firstWriteTags,
    List.length_map, firstTags, List.length_map, List.length_range] at lengths

/-- The next beat of a burst is generated as soon as the send queue has room: its data word is
queued, or its tag can be given back.
-/
theorem WritePathKept.goesOn {s : PcieCtrl} (kept : WritePathKept s)
    (busy : s.writes.dataWordsRemain ≠ 0) (room : s.tx.sendTLPQ.items.length < 8)
    : ∃ s', s.generateDataTLP = some s' := by
  have queued := kept.supplied
  obtain ⟨_, ⟨current, flow⟩, _⟩ := kept
  have positive : s.writes.dataWordsRemain > 0 := by bv_omega
  rw [PcieCtrl.generateDataTLP, if_pos positive]
  by_cases more : s.writes.dataWordsRemain > 1
  case pos =>
    have several : 1 < s.writes.dataWordsRemain.toNat := BitVec.lt_def.mp more
    obtain ⟨d, rest, items⟩ := List.exists_cons_of_length_pos
      (show 0 < s.writes.dmaWriteWordQ.items.length by omega)
    obtain ⟨wordQ, taken, -⟩ := Fifo.deq_of_items items
    obtain ⟨sendQ, put⟩ := Fifo.enq_of_room room
      (writeDataTLP (PcieCtrl.nextBeatData s.writes.dmaWriteBuf d) 0xffff#16 0#1)
    rw [if_pos more]
    exact ⟨_, Option.bind_eq_some_iff.mpr ⟨(d, wordQ), taken,
      Option.bind_eq_some_iff.mpr ⟨sendQ, put, rfl⟩⟩⟩
  case neg =>
    have total := flow.total
    have few := flow.few
    have underWay := flow.underWay
    rw [if_neg busy] at underWay
    obtain ⟨tag, rfl⟩ := List.length_eq_one_iff.mp underWay
    have inLine := flow.busy
    rw [inLine, List.length_append, List.length_singleton] at total
    obtain ⟨busyQ, taken, -⟩ := Fifo.deq_of_items inLine
    obtain ⟨freeQ, freed⟩ := Fifo.enq_of_room (q := s.tags.freeWriteTagQ)
      (show s.tags.freeWriteTagQ.items.length < 128 by omega) tag
    obtain ⟨sendQ, put⟩ := Fifo.enq_of_room room (writeDataTLP s.writes.dmaWriteBuf 0x0fff#16 1#1)
    rw [if_neg more]
    exact ⟨_, Option.bind_eq_some_iff.mpr ⟨(tag, busyQ), taken,
      Option.bind_eq_some_iff.mpr ⟨freeQ, freed,
        Option.bind_eq_some_iff.mpr ⟨sendQ, put, rfl⟩⟩⟩⟩

/-- No write tag is lost or in two places, the bursts in line have theirs in order, and a burst that
has started waits for nothing but room in the send queue.
-/
structure WriteBurstsServed (s : PcieCtrl) : Prop where
  conserved : s.writeTags.Perm (firstWriteTags s.tags.freeTagCnt.toNat)
  distinct : s.writeTags.Nodup
  inLine
    : s.writes.dmaPageWriteReqQ.items.map DMAReq.tag
      = s.writes.busyWriteTagQ.items.drop (if s.writes.dataWordsRemain = 0 then 0 else 1)
  goesOn
    : s.writes.dataWordsRemain ≠ 0 → s.tx.sendTLPQ.items.length < 8 →
        ∃ s', s.generateDataTLP = some s'

/-- In every run write tags are conserved, and a write burst that has started is never held up for
want of data or of room for its tag.
-/
theorem write_bursts_served {p : PowerUp} {s : PcieCtrl}
    (run : Reach PcieCtrl.step anyEvent (mkPcieCtrl p) s)
    : WriteBurstsServed s := by
  have kept : WritePathKept s :=
    run.invariant (writePathKept_reset p) (fun kept _ fires => kept.step fires)
  obtain ⟨current, flow⟩ := kept.tags
  refine ⟨flow.pool, flow.pool.nodup_iff.mpr (nodup_firstWriteTags flow.few), ?_,
    fun busy room => kept.goesOn busy room⟩
  rw [flow.busy, ← flow.underWay, List.drop_left]

/-- A burst of two words after its header: the second word is queued, and tag 128 is busy. -/
theorem write_bursts_served_twoWords
    : ∃ s : PcieCtrl,
        Reach PcieCtrl.step anyEvent (mkPcieCtrl default) s
        ∧ (s.writes.dataWordsRemain, s.writes.busyWriteTagQ.items) = (2, [128])
        ∧ WriteBurstsServed s := by
  obtain ⟨s, run, seen⟩ := exec_reach_map PcieCtrl.step anyEvent (mkPcieCtrl default)
    [.insertFreeTag, .relayFreeWriteTag, .dmaWriteReq 0 2, .dmaWriteData 7, .dmaWriteData 9,
      .splitDmaWriteReq, .splitDmaWriteReq2, .relayBufIdxRead, .generateHeaderTLP]
    (fun s => (s.writes.dataWordsRemain, s.writes.busyWriteTagQ.items)) (2, [128])
    (by decide +kernel)
  exact ⟨s, run, seen, write_bursts_served run⟩

end BluespecPcie

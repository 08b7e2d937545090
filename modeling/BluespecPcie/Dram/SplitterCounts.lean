import BluespecPcie.Dram.SplitterReads

/-! `curCnt` of `mkDRAMBurstSplitter`: one burst at a time is accepted. -/

namespace BluespecPcie

open Bluespec

-----------------------------------------------------------------------------------------
-- Supplied words
-----------------------------------------------------------------------------------------

/-- A word for the last burst; induction on the bursts before it. -/
theorem ClientWrite.supply_last {i : Nat} (word : BitVec 512) (earlier : List ClientWrite)
    {b : ClientWrite} (mine : b.client = i)
    : supply i word (earlier ++ [b]) = earlier ++ [{ b with data := b.data ++ [word] }] := by
  induction earlier with
  | nil =>
      rw [List.nil_append, supply, if_pos ⟨mine, nofun⟩]
      rfl
  | cons e earlier ih =>
      rw [List.cons_append, supply, if_neg, ih]
      · rfl
      · rintro ⟨_, others⟩
        exact others b (by simp) mine

/-- A word that is supplied changes no request; induction on the bursts. -/
theorem ClientWrite.supply_req (i : Nat) (word : BitVec 512) (writes : List ClientWrite)
    : (supply i word writes).map req = writes.map req := by
  induction writes with
  | nil => rfl
  | cons b writes ih =>
      rw [supply]
      split
      · rfl
      · rw [List.map_cons, ih, List.map_cons]

/-- How many words clients have not supplied for their write bursts. -/
def lacking (writes : List ClientWrite) : Nat :=
  (writes.map (fun b => b.words.toNat - b.data.length)).sum

theorem lacking_snoc (writes : List ClientWrite) (b : ClientWrite)
    : lacking (writes ++ [b]) = lacking writes + (b.words.toNat - b.data.length) := by
  simp [lacking]

/-- Nothing lacks: every burst is complete. -/
theorem complete_of_lacking {writes : List ClientWrite} (none : lacking writes = 0)
    (filled : ∀ b ∈ writes, b.data.length ≤ b.words.toNat)
    : ∀ b ∈ writes, b.data.length = b.words.toNat := by
  intro b member
  have zero := (List.sum_eq_zero_iff_forall_eq_nat.mp none) _
    (List.mem_map_of_mem (f := fun b : ClientWrite => b.words.toNat - b.data.length) member)
  have bound := filled b member
  change b.words.toNat - b.data.length = 0 at zero
  omega

/-- What clients have not supplied and what they have is what they asked for; induction on the
bursts.
-/
theorem lacking_add {writes : List ClientWrite}
    (filled : ∀ b ∈ writes, b.data.length ≤ b.words.toNat)
    : lacking writes + (writes.flatMap ClientWrite.data).length
      = (writes.flatMap (fun b => b.req.addrs)).length := by
  induction writes with
  | nil => rfl
  | cons b writes ih =>
      have bound := filled b (by simp)
      have asks : b.req.addrs.length = b.words.toNat := by
        simp [BurstReq.addrs, burstAddrs, ClientWrite.req]
      have rest := ih (fun b member => filled b (List.mem_cons_of_mem _ member))
      have more : lacking (b :: writes) = (b.words.toNat - b.data.length) + lacking writes := by
        simp [lacking]
      rw [more, List.flatMap_cons, List.flatMap_cons, List.length_append, List.length_append,
        asks]
      omega

/-- The words on their way in `writerM` are `held`: they are of one client, that of the last
burst, and all bursts before it are complete.
-/
structure Supply (wcnt : Nat) (writerM : MergeN (BitVec 512)) (writes : List ClientWrite)
    (port : Nat) (held : List (BitVec 512)) : Prop where
  holds : MergeN.Holds wcnt writerM (fun j => if j = port then held else [])
  owner : held ≠ [] → ∃ earlier b, writes = earlier ++ [b] ∧ b.client = port
  full
    : ∀ earlier b,
        writes = earlier ++ [b]
        → ∀ e ∈ earlier, e.data.length = e.words.toNat
  filled : ∀ b ∈ writes, b.data.length ≤ b.words.toNat

namespace Supply

variable {wcnt : Nat} {writerM writerM' : MergeN (BitVec 512)} {writes : List ClientWrite}
  {port : Nat} {held : List (BitVec 512)}

theorem init (wcnt : Nat) : Supply wcnt (mkMergeN wcnt) [] 0 [] := by
  refine ⟨?_, fun some => absurd rfl some, ?_, nofun⟩
  · have none : (fun j : Nat => if j = 0 then ([] : List (BitVec 512)) else []) = fun _ => [] := by
      funext j
      split <;> rfl
    rw [none]
    exact .init
  · intro earlier b split
    have length := congrArg List.length split
    simp at length

/-- A burst is accepted behind complete ones. -/
theorem accept (supply : Supply wcnt writerM writes port []) (none : lacking writes = 0)
    (i : Nat) (addr : BitVec 64) (words : BitVec 32)
    : Supply wcnt writerM (writes ++ [⟨i, addr, words, []⟩]) port [] := by
  obtain ⟨holds, _, full, filled⟩ := supply
  refine ⟨holds, fun some => absurd rfl some, ?_, ?_⟩
  · intro earlier b split e member
    obtain ⟨same, _⟩ := List.append_inj' split rfl
    exact complete_of_lacking none filled e (same ▸ member)
  · intro b member
    rcases List.mem_append.mp member with old | new
    · exact filled b old
    · rw [List.mem_singleton.mp new]
      exact Nat.zero_le _

/-- A client supplies a word of its burst, which is the last one. -/
theorem write (supply : Supply wcnt writerM writes port held) {i : Nat} (within : i < wcnt)
    {word : BitVec 512} (more : ∃ b ∈ writes, b.client = i ∧ b.data.length < b.words.toNat)
    (put : writerM.enq wcnt i word = some writerM')
    : ∃ earlier b,
        writes = earlier ++ [b]
        ∧ ClientWrite.supply i word writes = earlier ++ [{ b with data := b.data ++ [word] }]
        ∧ b.client = i
        ∧ b.data.length < b.words.toNat
        ∧ Supply wcnt writerM' (ClientWrite.supply i word writes) i (held ++ [word]) := by
  obtain ⟨holds, owner, full, filled⟩ := supply
  obtain ⟨b, member, mine, short⟩ := more
  rcases List.eq_nil_or_concat writes with rfl | ⟨earlier, last, split⟩
  · cases member
  rw [List.concat_eq_append] at split
  subst split
  have here : b = last := by
    rcases List.mem_append.mp member with old | new
    · have whole := full earlier last rfl b old
      omega
    · exact List.mem_singleton.mp new
  subst here
  have supplied := ClientWrite.supply_last word earlier mine
  refine ⟨earlier, b, rfl, supplied, mine, short, ?_⟩
  rw [supplied]
  refine ⟨?_, fun _ => ⟨earlier, _, rfl, mine⟩, ?_, ?_⟩
  · have port' : held = [] ∨ port = i := by
      by_cases none : held = []
      · exact .inl none
      · obtain ⟨earlier', b', split, client⟩ := owner none
        obtain ⟨_, same⟩ := List.append_inj' split rfl
        have equal : b = b' := List.singleton_inj.mp same
        exact .inr (by rw [← client, ← equal, mine])
    have after := holds.enq within put
    refine (congrArg (MergeN.Holds wcnt writerM') ?_).mp after
    funext j
    by_cases here : j = i
    · subst here
      rw [Function.update_self, if_pos rfl]
      rcases port' with none | same
      · rw [none]
        simp
      · rw [if_pos same.symm]
    · rw [Function.update_of_ne here, if_neg here]
      rcases port' with none | same
      · rw [none]
        simp
      · rw [if_neg (by rw [same]; exact here)]
  · intro earlier' b' split e member
    obtain ⟨same, _⟩ := List.append_inj' split rfl
    exact full earlier b rfl e (same ▸ member)
  · intro e member
    rcases List.mem_append.mp member with old | new
    · exact filled e (List.mem_append_left _ old)
    · rw [List.mem_singleton.mp new, List.length_append, List.length_singleton]
      exact short

/-- The oldest word leaves. -/
theorem take (supply : Supply wcnt writerM writes port held) {word : BitVec 512}
    (taken : writerM.deq = some (word, writerM'))
    : ∃ rest, held = word :: rest ∧ Supply wcnt writerM' writes port rest := by
  obtain ⟨holds, owner, full, filled⟩ := supply
  obtain ⟨k, rest, within, first, after⟩ := holds.deq taken
  by_cases mine : k = port
  · subst mine
    rw [if_pos rfl] at first
    refine ⟨rest, first, ?_, fun _ => owner (by rw [first]; exact List.cons_ne_nil _ _), full,
      filled⟩
    refine (congrArg (MergeN.Holds wcnt writerM') ?_).mp after
    funext j
    by_cases here : j = k
    · rw [here, Function.update_self, if_pos rfl]
    · rw [Function.update_of_ne here, if_neg here, if_neg here]
  · rw [if_neg mine] at first
    cases first

end Supply

-----------------------------------------------------------------------------------------
-- The count
-----------------------------------------------------------------------------------------

/-- `curCnt` is what the burst that was accepted last lacks; words go to the DRAM in the order in
which they are supplied.
-/
structure Counted (rcnt wcnt : Nat) (answer : List DramCall → BitVec 64 → BitVec 512)
    (m : DRAMBurstSplitter) (log : SplitterLog) (delivered : List (BitVec 8 × BitVec 512))
    (port : Nat) (held : List (BitVec 512)) : Prop where
  reads
    : (m.readSide answer).Inv rcnt (log.reads.map ClientRead.req) log.received delivered
  supply : Supply wcnt m.writerM log.writes port held
  count
    : m.curCnt.toNat = lacking log.writes + held.length + (m.readSide answer).outstanding
  data
    : log.writes.flatMap ClientWrite.data
      = (writeCalls m.ctl.dram.calls).map Prod.snd ++ m.writerdQ.items ++ held

namespace Counted

variable {rcnt wcnt : Nat} {answer : List DramCall → BitVec 64 → BitVec 512}
  {m m' : DRAMBurstSplitter} {log : SplitterLog} {delivered : List (BitVec 8 × BitVec 512)}
  {port : Nat} {held : List (BitVec 512)}

theorem init (rcnt wcnt : Nat) (answer : List DramCall → BitVec 64 → BitVec 512)
    : Counted rcnt wcnt answer (mkDRAMBurstSplitter rcnt wcnt) {} [] 0 [] := by
  have none : (mkMergeN rcnt : MergeN BurstReq).items = [] := MergeN.items_mkMergeN rcnt
  refine ⟨.init rcnt wcnt answer, .init wcnt, ?_, rfl⟩
  simp [ReadSide.outstanding, DRAMBurstSplitter.readSide, mkDRAMBurstSplitter, lacking, none,
    pending, Fifo.empty]

/-- While a burst is accepted nothing lacks. -/
theorem idle (counted : Counted rcnt wcnt answer m log delivered port held)
    (free : m.curCnt = 0)
    : lacking log.writes = 0 ∧ held = [] ∧ (m.readSide answer).outstanding = 0 := by
  have count := counted.count
  rw [free] at count
  change 0 = _ at count
  exact ⟨by omega, List.eq_nil_of_length_eq_zero (by omega), by omega⟩

/-- Every event keeps the count. -/
theorem step (small : rcnt ≤ 256) (counted : Counted rcnt wcnt answer m log delivered port held)
    {e : SplitterEvent} (follows : log.Follows e)
    (fires : m.step rcnt wcnt answer e = some m')
    : ∃ delivered' port' held',
        Counted rcnt wcnt answer m' (SplitterLog.record rcnt wcnt answer m e log) delivered'
          port' held' := by
  obtain ⟨reads, supply, count, data⟩ := counted
  cases e with
  | rule rule =>
      cases rule with
      | relayDramRead =>
          obtain ⟨r, mReader, readerQ, taken, put, rfl⟩ :=
            DRAMBurstSplitter.relayDramRead_cases fires
          have same : readerQ.items ++ mReader.items = m.readerQ.items ++ m.mReader.items := by
            rw [put, taken, List.append_assoc]
            rfl
          have side : DRAMBurstSplitter.readSide answer { m with mReader, readerQ }
              = m.readSide answer := by
            simp only [DRAMBurstSplitter.readSide, same]
          refine ⟨delivered, port, held, ?_, supply, ?_, data⟩
          · rw [side]
            exact reads
          · rw [side]
            exact count
      | relayDramWrite =>
          obtain ⟨r, mWriter, writerQ, taken, put, rfl⟩ :=
            DRAMBurstSplitter.relayDramWrite_cases fires
          refine ⟨delivered, port, held, ?_⟩
          simp only [SplitterLog.record, taken]
          exact ⟨reads, supply, count, data⟩
      | startDramWrite =>
          obtain ⟨noRead, _, _, _, r, writerQ, taken, rfl⟩ :=
            DRAMBurstSplitter.startDramWrite_cases fires
          exact ⟨delivered, port, held, reads.other noRead r.idx, supply, count, data⟩
      | startDramRead =>
          obtain ⟨noRead, _, r, readerQ, taken, rfl⟩ :=
            DRAMBurstSplitter.startDramRead_cases fires
          have first : (m.readSide answer).requests
              = r :: (readerQ.items ++ m.mReader.items) := by
            change m.readerQ.items ++ _ = _
            rw [taken]
            rfl
          obtain ⟨after, same⟩ := reads.start noRead first
          exact ⟨delivered, port, held, after, supply, count.trans (congrArg _ same.symm), data⟩
      | relayWriteC =>
          obtain ⟨word, writerM, writerdQ, taken, put, rfl⟩ :=
            DRAMBurstSplitter.relayWriteC_cases fires
          obtain ⟨rest, split, supply'⟩ := supply.take taken
          refine ⟨delivered, port, rest, reads, supply', ?_, ?_⟩
          · rw [split, List.length_cons] at count
            change (m.curCnt - 1).toNat
              = lacking log.writes + rest.length + (m.readSide answer).outstanding
            bv_omega
          · change log.writes.flatMap ClientWrite.data = _
            rw [data, split, put]
            simp
      | relayWrite =>
          obtain ⟨_, _, d, writerdQ, taken, rfl⟩ := DRAMBurstSplitter.relayWrite_cases fires
          have side : DRAMBurstSplitter.readSide answer { m with
              curWriteCnt := m.curWriteCnt - 1
              writerdQ
              ctl := { m.ctl with
                dram := m.ctl.dram.write m.ctl.writeCurAddr d
                writeCurAddr := m.ctl.writeCurAddr + 64
                writeWordLeft := m.ctl.writeWordLeft - 1 } } = m.readSide answer := by
            simp only [DRAMBurstSplitter.readSide, DramUser.write, readWords_write]
          refine ⟨delivered, port, held, ?_, supply, ?_, ?_⟩
          · rw [side]
            exact reads
          · rw [side]
            exact count
          · change log.writes.flatMap ClientWrite.data = _
            rw [data, taken]
            simp only [DramUser.write, writeCalls_write, List.map_append, List.map_singleton,
              List.append_assoc, List.cons_append, List.nil_append]
      | relayRead =>
          obtain ⟨busy, d, responses, readerdQ, taken, put, rfl⟩ :=
            DRAMBurstSplitter.relayRead_cases fires
          obtain ⟨after, same⟩ := reads.respond busy taken
          refine ⟨delivered, port, held, ?_, supply, ?_, data⟩
          · rw [DRAMBurstSplitter.readSide, put]
            exact after
          · rw [DRAMBurstSplitter.readSide, put]
            exact count.trans (congrArg _ same.symm)
      | relayReadClient =>
          obtain ⟨r, readerdQ, q, taken, put, rfl⟩ :=
            DRAMBurstSplitter.relayReadClient_cases fires
          have after := reads.deliver small taken
          have queues : (fun i => (Function.update m.readerQs r.1.toNat q i).items)
              = Function.update (fun i => (m.readerQs i).items) r.1.toNat
                ((m.readerQs r.1.toNat).items ++ [r.2]) := by
            funext i
            by_cases mine : i = r.1.toNat
            · rw [mine, Function.update_self, Function.update_self, put]
            · rw [Function.update_of_ne mine, Function.update_of_ne mine]
          refine ⟨delivered ++ [r], port, held, ?_, supply, ?_, data⟩
          · rw [DRAMBurstSplitter.readSide, queues]
            exact after
          · have fewer : m.curCnt.toNat = lacking log.writes + held.length
                + (readerdQ.items.length + 1 + m.curReadCnt.toNat
                  + ((pending (m.readSide answer).requests).flatMap BurstReq.clients).length) := by
              rw [count, ReadSide.outstanding]
              simp only [DRAMBurstSplitter.readSide, taken, List.length_cons]
            change (m.curCnt - 1).toNat = lacking log.writes + held.length
              + (readerdQ.items.length + m.curReadCnt.toNat
                + ((pending (m.readSide answer).requests).flatMap BurstReq.clients).length)
            bv_omega
      | dramReadReq =>
          obtain ⟨more, rfl⟩ := DRAMBurstSplitter.dramReadReq_cases fires
          have after := reads.request more (answer m.ctl.dram.calls m.ctl.readCurAddr)
          refine ⟨delivered, port, held, ?_, supply, count, ?_⟩
          · rw [DRAMBurstSplitter.readSide]
            simp only [DramUser.readReq, readWords_readReq, List.nil_append]
            exact after
          · simp only [DramUser.readReq, writeCalls_readReq]
            exact data
      | mReader rule =>
          obtain ⟨mReader, moved, ⟨⟩⟩ := Option.map_eq_some_iff.mp fires
          have same : (m.readerQ.items ++ mReader.items).Perm (m.readSide answer).requests :=
            (MergeN.fire_perm moved).append_left _
          obtain ⟨after, kept⟩ := reads.move same
          exact ⟨delivered, port, held, after, supply, count.trans (congrArg _ kept.symm), data⟩
      | mWriter rule =>
          obtain ⟨mWriter, moved, ⟨⟩⟩ := Option.map_eq_some_iff.mp fires
          exact ⟨delivered, port, held, reads, supply, count, data⟩
      | writerM rule =>
          obtain ⟨writerM, moved, ⟨⟩⟩ := Option.map_eq_some_iff.mp fires
          obtain ⟨holds, owner, full, filled⟩ := supply
          exact ⟨delivered, port, held, reads, ⟨holds.fire moved, owner, full, filled⟩, count, data⟩
  | readReq i addr words =>
      simp only [DRAMBurstSplitter.step] at fires
      split at fires
      next within =>
        obtain ⟨free, mReader, entered, rfl⟩ := DRAMBurstSplitter.readReq_cases fires
        obtain ⟨none, empty, nothing⟩ := idle ⟨reads, supply, count, data⟩ free
        have same : (m.readerQ.items ++ mReader.items).Perm
            (⟨addr, words, BitVec.ofNat 8 i⟩ :: (m.readSide answer).requests) :=
          (entered.append_left _).trans List.perm_middle
        obtain ⟨after, asks⟩ := reads.accept nothing ⟨addr, words, BitVec.ofNat 8 i⟩ same
        refine ⟨delivered, port, held, ?_, supply, ?_, data⟩
        · simp only [SplitterLog.record, List.map_append]
          exact after
        · change words.toNat = lacking log.writes + held.length + _
          rw [none, empty]
          exact asks.symm.trans (Nat.zero_add _).symm
      next => cases fires
  | read i =>
      simp only [DRAMBurstSplitter.step] at fires
      split at fires
      next within =>
        obtain ⟨⟨word, _⟩, called, ⟨⟩⟩ := Option.map_eq_some_iff.mp fires
        obtain ⟨q, first, rfl⟩ := DRAMBurstSplitter.read_cases called
        have after := reads.take first
        have queues : (fun j => (Function.update m.readerQs i q j).items)
            = Function.update (fun j => (m.readerQs j).items) i q.items := by
          funext j
          by_cases mine : j = i
          · rw [mine, Function.update_self, Function.update_self]
          · rw [Function.update_of_ne mine, Function.update_of_ne mine]
        refine ⟨delivered, port, held, ?_, supply, count, data⟩
        simp only [SplitterLog.record, called]
        rw [DRAMBurstSplitter.readSide, queues]
        exact after
      next => cases fires
  | writeReq i addr words =>
      simp only [DRAMBurstSplitter.step] at fires
      split at fires
      next within =>
        obtain ⟨free, mWriter, entered, rfl⟩ := DRAMBurstSplitter.writeReq_cases fires
        obtain ⟨none, rfl, nothing⟩ := idle ⟨reads, supply, count, data⟩ free
        refine ⟨delivered, port, [], reads, supply.accept none i addr words, ?_, ?_⟩
        · change words.toNat = lacking (log.writes ++ [⟨i, addr, words, []⟩]) + 0
            + (m.readSide answer).outstanding
          rw [lacking_snoc, none, nothing]
          simp
        · change (log.writes ++ [_]).flatMap ClientWrite.data = _
          rw [List.flatMap_append, data]
          exact List.append_nil _
      next => cases fires
  | write i word =>
      simp only [DRAMBurstSplitter.step] at fires
      split at fires
      next within =>
        obtain ⟨writerM, put, ⟨⟩⟩ := Option.bind_eq_some_iff.mp fires
        obtain ⟨earlier, b, split, supplied, _, short, supply'⟩ := supply.write within follows put
        refine ⟨delivered, i, held ++ [word], reads, supply', ?_, ?_⟩
        · change m.curCnt.toNat = lacking (ClientWrite.supply i word log.writes)
            + (held ++ [word]).length + (m.readSide answer).outstanding
          rw [split, lacking_snoc] at count
          rw [supplied, lacking_snoc]
          simp only [List.length_append, List.length_singleton]
          omega
        · change (ClientWrite.supply i word log.writes).flatMap ClientWrite.data = _
          rw [split, List.flatMap_append, List.flatMap_singleton] at data
          rw [supplied, List.flatMap_append, List.flatMap_singleton, ← List.append_assoc, data,
            List.append_assoc]
      next => cases fires

end Counted

end BluespecPcie

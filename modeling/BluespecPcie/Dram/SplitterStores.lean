import BluespecPcie.Dram.SplitterOrder

/-! Write bursts in `mkDRAMBurstSplitter`: when each burst's words get to its own addresses. -/

namespace BluespecPcie

open Bluespec

-----------------------------------------------------------------------------------------
-- Addresses and words of bursts
-----------------------------------------------------------------------------------------

/-- Words at consecutive addresses. -/
theorem placed_burst (addr : BitVec 64) (data : List (BitVec 512))
    : Stores.placed (burstAddr addr) data = (burstAddrs addr data.length).zip data := by
  refine List.ext_getElem (by simp [burstAddrs]) ?_
  intro i _ _
  simp [Stores.placed, burstAddrs]

/-- The words of bursts one behind the other; induction on the bursts. -/
theorem stores_zip (writes : List ClientWrite)
    : writes.flatMap ClientWrite.stores
      = (writes.flatMap (fun b => burstAddrs b.addr b.data.length)).zip
          (writes.flatMap ClientWrite.data) := by
  induction writes with
  | nil => rfl
  | cons b writes ih =>
      rw [List.flatMap_cons, List.flatMap_cons, List.flatMap_cons, ih, ClientWrite.stores,
        placed_burst, List.zip_append (by simp [burstAddrs])]

/-- A shorter burst has the first addresses. -/
theorem burstAddrs_prefix (addr : BitVec 64) {n k : Nat} (fewer : n ≤ k)
    : burstAddrs addr n <+: burstAddrs addr k := by
  have whole : k = n + (k - n) := by omega
  rw [burstAddrs, burstAddrs, whole, List.range_add, List.map_append]
  exact List.prefix_append _ _

/-- While only the last burst is incomplete, the words supplied have the first addresses. -/
theorem supplied_prefix {writes : List ClientWrite}
    (full
      : ∀ earlier b,
          writes = earlier ++ [b]
          → ∀ e ∈ earlier, e.data.length = e.words.toNat)
    (filled : ∀ b ∈ writes, b.data.length ≤ b.words.toNat)
    : writes.flatMap (fun b => burstAddrs b.addr b.data.length)
      <+: writes.flatMap (fun b => b.req.addrs) := by
  rcases List.eq_nil_or_concat writes with rfl | ⟨earlier, last, split⟩
  · exact List.prefix_refl _
  · rw [List.concat_eq_append] at split
    subst split
    have same : earlier.flatMap (fun b => burstAddrs b.addr b.data.length)
        = earlier.flatMap (fun b => b.req.addrs) := by
      refine List.flatMap_congr ?_
      intro b member
      rw [full earlier last rfl b member]
      rfl
    rw [List.flatMap_append, List.flatMap_append, same, List.flatMap_singleton,
      List.flatMap_singleton, List.prefix_append_right_inj]
    exact burstAddrs_prefix _ (filled last (by simp))

/-- Two prefixes of a list, the shorter one first. -/
theorem zip_prefix {α β : Type} {xs : List (α × β)} {as bs : List α} {cs : List β}
    (addrs : xs.map Prod.fst <+: bs) (inside : as <+: bs) (data : xs.map Prod.snd <+: cs)
    (enough : cs.length ≤ as.length)
    : xs <+: as.zip cs := by
  have short : (xs.map Prod.fst).length ≤ as.length := by
    have length := data.length_le
    rw [List.length_map] at length ⊢
    omega
  obtain ⟨moreA, splitA⟩ := List.prefix_of_prefix_length_le addrs inside short
  obtain ⟨moreC, splitC⟩ := data
  rw [← splitA, ← splitC, List.zip_append (by simp), ← @List.zip_of_prod _ _ _ _ xs rfl rfl]
  exact List.prefix_append _ _

namespace SplitterLog

-----------------------------------------------------------------------------------------
-- The invariant
-----------------------------------------------------------------------------------------

/-- Of the write requests with words the one that was accepted first leaves `mWriter` first. -/
def WritesInTurn (s : DRAMBurstSplitter × SplitterLog) (e : SplitterEvent) : Prop :=
  s.2.Follows e
  ∧ match e with
    | .rule .relayDramWrite =>
        ∀ r ∈ s.1.mWriter.deq.map Prod.fst,
          r.words = 0 ∨ (s.2.requests.drop s.2.relayed).head? = some r
    | _ => True

instance decidableWritesInTurn (s : DRAMBurstSplitter × SplitterLog) (e : SplitterEvent)
    : Decidable (WritesInTurn s e) := by
  unfold WritesInTurn
  refine @instDecidableAnd _ _ _ ?_
  split <;> infer_instance

/-- The requests in `mWriter` are those that were accepted last, and the words written have the
first addresses of the bursts.
-/
structure InTurn (m : DRAMBurstSplitter) (log : SplitterLog) : Prop where
  level : m.ctl.writeWordLeft = m.curWriteCnt
  relayed : log.relayed ≤ log.requests.length
  waiting : (pending m.mWriter.items).Perm (log.requests.drop log.relayed)
  addrs
    : log.requests.flatMap BurstReq.addrs
      = (writeCalls m.ctl.dram.calls).map Prod.fst
        ++ burstAddrs m.ctl.writeCurAddr m.ctl.writeWordLeft.toNat
        ++ (m.writerQ.items ++ log.requests.drop log.relayed).flatMap BurstReq.addrs

namespace InTurn

variable {rcnt wcnt : Nat} {answer : List DramCall → BitVec 64 → BitVec 512}
  {m m' : DRAMBurstSplitter} {log : SplitterLog}

theorem init (rcnt wcnt : Nat) : InTurn (mkDRAMBurstSplitter rcnt wcnt) {} := by
  have none : (mkMergeN wcnt : MergeN BurstReq).items = [] := MergeN.items_mkMergeN wcnt
  refine ⟨rfl, Nat.le_refl 0, ?_, rfl⟩
  simp [mkDRAMBurstSplitter, none, pending, requests]

/-- A rule that makes no call leaves the log. -/
theorem step {e : SplitterEvent} (inv : InTurn m log) (allowed : WritesInTurn (m, log) e)
    (fires : m.step rcnt wcnt answer e = some m')
    : InTurn m' (record rcnt wcnt answer m e log) := by
  obtain ⟨level, relayed, waiting, addrs⟩ := inv
  cases e with
  | rule rule =>
      cases rule with
      | relayDramRead =>
          obtain ⟨_, mReader, readerQ, _, _, rfl⟩ :=
            DRAMBurstSplitter.relayDramRead_cases fires
          exact ⟨level, relayed, waiting, addrs⟩
      | relayDramWrite =>
          obtain ⟨r, mWriter, writerQ, taken, put, rfl⟩ :=
            DRAMBurstSplitter.relayDramWrite_cases fires
          have here : r ∈ m.mWriter.deq.map Prod.fst := by rw [taken]; rfl
          have turn := allowed.2 r here
          rw [MergeN.deq_items taken] at waiting
          simp only [record, taken]
          by_cases some : 0 < r.words
          · have first : (log.requests.drop log.relayed).head? = Option.some r := by
              rcases turn with none | first
              · rw [none] at some
                exact absurd some (BitVec.lt_irrefl 0)
              · exact first
            obtain ⟨rest, split⟩ := List.head?_eq_some_iff.mp first
            have behind : log.requests.drop (log.relayed + 1) = rest := by
              rw [← List.drop_drop, split]
              rfl
            rw [pending, List.filter_cons_of_pos (by simpa using some), split] at waiting
            rw [split] at addrs
            refine ⟨level, ?_, ?_, ?_⟩
            · have length := congrArg List.length split
              rw [List.length_drop, List.length_cons] at length
              rw [if_pos some]
              change log.relayed + 1 ≤ log.requests.length
              omega
            · rw [if_pos some]
              change (pending mWriter.items).Perm (log.requests.drop (log.relayed + 1))
              rw [behind]
              exact waiting.cons_inv
            · rw [if_pos some]
              change log.requests.flatMap BurstReq.addrs = _ ++ _
                ++ (writerQ.items ++ log.requests.drop (log.relayed + 1)).flatMap BurstReq.addrs
              rw [addrs, put, behind, List.append_assoc m.writerQ.items]
              rfl
          · rw [pending, List.filter_cons_of_neg (by simpa using some)] at waiting
            refine ⟨level, ?_, ?_, ?_⟩
            · rw [if_neg some]
              exact relayed
            · rw [if_neg some]
              exact waiting
            · rw [if_neg some]
              change log.requests.flatMap BurstReq.addrs = _ ++ _
                ++ (writerQ.items ++ log.requests.drop log.relayed).flatMap BurstReq.addrs
              rw [addrs, put, List.flatMap_append, List.flatMap_append, List.flatMap_append,
                List.flatMap_singleton, BurstReq.addrs_eq_nil some, List.append_nil]
      | startDramWrite =>
          obtain ⟨_, noWrite, none, _, r, writerQ, taken, rfl⟩ :=
            DRAMBurstSplitter.startDramWrite_cases fires
          rw [none, taken, List.cons_append, List.flatMap_cons] at addrs
          refine ⟨rfl, relayed, waiting, addrs.trans ?_⟩
          change _ ++ [] ++ (r.addrs ++ _) = _ ++ burstAddrs r.addr r.words.toNat ++ _
          rw [List.append_nil, List.append_assoc]
          rfl
      | startDramRead =>
          obtain ⟨_, _, r, readerQ, _, rfl⟩ := DRAMBurstSplitter.startDramRead_cases fires
          exact ⟨level, relayed, waiting, addrs⟩
      | relayWriteC =>
          obtain ⟨_, writerM, writerdQ, _, _, rfl⟩ := DRAMBurstSplitter.relayWriteC_cases fires
          exact ⟨level, relayed, waiting, addrs⟩
      | relayWrite =>
          obtain ⟨_, more, d, writerdQ, _, rfl⟩ := DRAMBurstSplitter.relayWrite_cases fires
          have some : 0 < m.ctl.writeWordLeft.toNat := more
          have split : m.ctl.writeWordLeft.toNat = (m.ctl.writeWordLeft - 1).toNat + 1 := by
            bv_omega
          refine ⟨?_, relayed, waiting, ?_⟩
          · change m.ctl.writeWordLeft - 1 = m.curWriteCnt - 1
            rw [level]
          · rw [split, burstAddrs_succ] at addrs
            refine addrs.trans ?_
            simp only [DramUser.write, writeCalls_write, List.map_append, List.map_singleton,
              List.append_assoc, List.cons_append, List.nil_append]
            rfl
      | relayRead =>
          obtain ⟨_, _, responses, readerdQ, _, _, rfl⟩ :=
            DRAMBurstSplitter.relayRead_cases fires
          exact ⟨level, relayed, waiting, addrs⟩
      | relayReadClient =>
          obtain ⟨_, readerdQ, q, _, _, rfl⟩ := DRAMBurstSplitter.relayReadClient_cases fires
          exact ⟨level, relayed, waiting, addrs⟩
      | dramReadReq =>
          obtain ⟨_, rfl⟩ := DRAMBurstSplitter.dramReadReq_cases fires
          refine ⟨level, relayed, waiting, addrs.trans ?_⟩
          simp only [DramUser.readReq, writeCalls_readReq]
          rfl
      | mReader rule =>
          obtain ⟨mReader, _, ⟨⟩⟩ := Option.map_eq_some_iff.mp fires
          exact ⟨level, relayed, waiting, addrs⟩
      | mWriter rule =>
          obtain ⟨mWriter, moved, ⟨⟩⟩ := Option.map_eq_some_iff.mp fires
          exact ⟨level, relayed, ((MergeN.fire_perm moved).filter _).trans waiting, addrs⟩
      | writerM rule =>
          obtain ⟨writerM, _, ⟨⟩⟩ := Option.map_eq_some_iff.mp fires
          exact ⟨level, relayed, waiting, addrs⟩
  | readReq i addr words =>
      simp only [DRAMBurstSplitter.step] at fires
      split at fires
      next =>
        obtain ⟨_, mReader, _, rfl⟩ := DRAMBurstSplitter.readReq_cases fires
        exact ⟨level, relayed, waiting, addrs⟩
      next => cases fires
  | read i =>
      simp only [DRAMBurstSplitter.step] at fires
      split at fires
      next =>
        obtain ⟨⟨word, _⟩, called, ⟨⟩⟩ := Option.map_eq_some_iff.mp fires
        obtain ⟨q, _, rfl⟩ := DRAMBurstSplitter.read_cases called
        exact ⟨level, relayed, waiting, addrs⟩
      next => cases fires
  | writeReq i addr words =>
      simp only [DRAMBurstSplitter.step] at fires
      split at fires
      next =>
        obtain ⟨_, mWriter, entered, rfl⟩ := DRAMBurstSplitter.writeReq_cases fires
        have more : requests (record rcnt wcnt answer m (.writeReq i addr words) log)
            = log.requests ++ pending [⟨addr, words, BitVec.ofNat 8 i⟩] := by
          change List.filter _ ((log.writes ++ [_]).map ClientWrite.req) = _
          rw [List.map_append, List.filter_append]
          rfl
        have behind : (log.requests ++ pending [⟨addr, words, BitVec.ofNat 8 i⟩]).drop log.relayed
            = log.requests.drop log.relayed ++ pending [⟨addr, words, BitVec.ofNat 8 i⟩] :=
          List.drop_append_of_le_length relayed
        refine ⟨level, ?_, ?_, ?_⟩
        · rw [more, List.length_append]
          exact Nat.le_add_right_of_le relayed
        · rw [more]
          change (pending mWriter.items).Perm (List.drop log.relayed _)
          rw [behind]
          refine (entered.filter _).trans ?_
          rw [← List.singleton_append, List.filter_append]
          exact List.perm_append_comm.trans (waiting.append_right _)
        · rw [more]
          change _ = _ ++ _ ++ (m.writerQ.items ++ List.drop log.relayed _).flatMap _
          rw [behind, List.flatMap_append, addrs, ← List.append_assoc m.writerQ.items]
          conv_rhs => rw [List.flatMap_append]
          simp only [List.append_assoc]
      next => cases fires
  | write i word =>
      simp only [DRAMBurstSplitter.step] at fires
      split at fires
      next =>
        obtain ⟨writerM, put, ⟨⟩⟩ := Option.bind_eq_some_iff.mp fires
        have same : requests (record rcnt wcnt answer m (.write i word) log) = log.requests := by
          change List.filter _ ((ClientWrite.supply i word log.writes).map ClientWrite.req) = _
          rw [ClientWrite.supply_req]
          rfl
        refine ⟨level, ?_, ?_, ?_⟩
        · rw [same]
          exact relayed
        · rw [same]
          exact waiting
        · rw [same]
          exact addrs
      next => cases fires

end InTurn

end SplitterLog


/-- What the invariants say about the words written. -/
theorem Counted.stored_own {rcnt wcnt : Nat} {answer : List DramCall → BitVec 64 → BitVec 512}
    {m : DRAMBurstSplitter} {log : SplitterLog} {delivered : List (BitVec 8 × BitVec 512)}
    {port : Nat} {held : List (BitVec 512)}
    (counted : Counted rcnt wcnt answer m log delivered port held) (inv : log.InTurn m)
    : log.Stored m.ctl.dram.calls := by
  refine ⟨log.writes, fun _ => rfl, ?_⟩
  have addrs := inv.addrs
  rw [SplitterLog.requests, ← pending,
    pending_flatMap _ _ (fun r none => BurstReq.addrs_eq_nil none), List.flatMap_map,
    List.append_assoc] at addrs
  have data := counted.data
  rw [List.append_assoc] at data
  rw [stores_zip]
  refine zip_prefix ⟨_, addrs.symm⟩
    ( supplied_prefix counted.supply.full counted.supply.filled) ⟨_, data.symm⟩ ?_
  simp [List.length_flatMap, burstAddrs]

/-- In every run in which write requests leave `mWriter` in the order in which they are
accepted, each write burst's own words go to its own addresses and each reader gets its own
words.
-/
theorem bursts_intact (rcnt wcnt : Nat) (small : rcnt ≤ 256)
    (answer : List DramCall → BitVec 64 → BitVec 512) (m : DRAMBurstSplitter)
    (log : SplitterLog)
    (reach : Reach (traced (DRAMBurstSplitter.step rcnt wcnt answer)
      (SplitterLog.record rcnt wcnt answer)) SplitterLog.WritesInTurn
      (mkDRAMBurstSplitter rcnt wcnt, {}) (m, log))
    : log.Stored m.ctl.dram.calls ∧ log.Delivered rcnt answer m.ctl.dram.calls := by
  have inv : (∃ delivered port held, Counted rcnt wcnt answer m log delivered port held)
      ∧ SplitterLog.InTurn m log := by
    refine reach.invariant (P := fun s =>
      (∃ delivered port held, Counted rcnt wcnt answer s.1 s.2 delivered port held)
        ∧ SplitterLog.InTurn s.1 s.2)
      ⟨⟨[], 0, [], .init rcnt wcnt answer⟩, .init rcnt wcnt⟩ ?_
    rintro s e s' ⟨⟨delivered, port, held, counted⟩, inv⟩ allowed fires
    obtain ⟨fired, recorded⟩ := traced_eq_some.mp fires
    rw [recorded]
    exact ⟨counted.step small allowed.1 fired, inv.step allowed fired⟩
  obtain ⟨⟨delivered, port, held, counted⟩, inv⟩ := inv
  exact ⟨counted.stored_own inv, counted.delivered_own⟩

namespace SplitterLog

/-- Writer `i` of two requests a burst of one word and supplies it. -/
def acceptWord (i : Nat) (addr : BitVec 64) (word : BitVec 512) : List SplitterEvent :=
  [.writeReq i addr 1, .write i word, .rule (.writerM .merge), .rule .relayWriteC]

/-- A write request goes from `mWriter` to the DRAM, and a word behind it. -/
def storeWord : List SplitterEvent := .rule (.mWriter .merge) :: storeWrite

end SplitterLog

/-- Two writers in turn. -/
theorem bursts_intact_two
    : ∃ m log,
        Reach (traced (DRAMBurstSplitter.step 1 2 lastWord)
          (SplitterLog.record 1 2 lastWord)) SplitterLog.WritesInTurn
          (mkDRAMBurstSplitter 1 2, {}) (m, log)
        ∧ (log.writes, m.ctl.dram.calls)
          = ([⟨1, 64, 1, [11]⟩, ⟨0, 0, 1, [10]⟩], [.write 64 11, .write 0 10])
        ∧ log.Stored m.ctl.dram.calls
        ∧ log.Delivered 1 lastWord m.ctl.dram.calls := by
  obtain ⟨⟨m, log⟩, run, seen⟩ := exec_reach_map
    (traced (DRAMBurstSplitter.step 1 2 lastWord) (SplitterLog.record 1 2 lastWord))
    SplitterLog.WritesInTurn (mkDRAMBurstSplitter 1 2, {})
    (SplitterLog.acceptWord 1 64 11 ++ SplitterLog.storeWord ++ SplitterLog.acceptWord 0 0 10
      ++ SplitterLog.storeWord)
    (fun s => (s.2.writes, s.1.ctl.dram.calls))
    ([⟨1, 64, 1, [11]⟩, ⟨0, 0, 1, [10]⟩], [.write 64 11, .write 0 10]) (by decide +kernel)
  exact ⟨m, log, run, seen, bursts_intact 1 2 (by decide) lastWord m log run⟩

/-- The request of writer 0 overtakes that of writer 1 in `mWriter`, and the word of writer 1
goes to the address of writer 0.
-/
theorem bursts_intact_overtaken
    : ∃ m log,
        Reach (traced (DRAMBurstSplitter.step 1 2 lastWord)
          (SplitterLog.record 1 2 lastWord)) (fun s => s.2.Follows)
          (mkDRAMBurstSplitter 1 2, {}) (m, log)
        ∧ (log.writes, m.ctl.dram.calls)
          = ([⟨1, 64, 1, [11]⟩, ⟨0, 0, 1, [10]⟩], [.write 0 11])
        ∧ ¬ log.Stored m.ctl.dram.calls := by
  obtain ⟨⟨m, log⟩, run, seen⟩ := exec_reach_map
    (traced (DRAMBurstSplitter.step 1 2 lastWord) (SplitterLog.record 1 2 lastWord))
    (fun s => s.2.Follows) (mkDRAMBurstSplitter 1 2, {})
    (SplitterLog.acceptWord 1 64 11 ++ SplitterLog.acceptWord 0 0 10 ++ SplitterLog.storeWord)
    (fun s => (s.2.writes, s.1.ctl.dram.calls))
    ([⟨1, 64, 1, [11]⟩, ⟨0, 0, 1, [10]⟩], [.write 0 11]) (by decide +kernel)
  refine ⟨m, log, run, seen, ?_⟩
  rintro ⟨order, own, stored⟩
  obtain ⟨writes, calls⟩ := Prod.mk.inj seen
  simp only at writes calls
  have first : (0, 11) ∈ order.flatMap ClientWrite.stores :=
    stored.subset (by rw [calls]; exact List.mem_singleton.mpr rfl)
  obtain ⟨b, member, mine⟩ := List.mem_flatMap.mp first
  have accepted : b ∈ log.writes.filter (fun other => other.client = b.client) := by
    rw [← own b.client]
    exact List.mem_filter.mpr ⟨member, by simp⟩
  have one := (List.mem_filter.mp accepted).1
  rw [writes] at one
  rcases List.mem_pair.mp one with rfl | rfl
  · exact absurd mine (by decide +kernel)
  · exact absurd mine (by decide +kernel)

end BluespecPcie

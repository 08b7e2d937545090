import BluespecPcie.PcieCtrl.MemoryReads
import BluespecPcie.PcieCtrl.TagLog

/-! The memory reads sent ask for just the words requested, burst by burst and in order. -/

namespace BluespecPcie

open Bluespec

-----------------------------------------------------------------------------------------
-- What was requested, and what is still to be asked for
-----------------------------------------------------------------------------------------

/-- The DMA read requests accepted, oldest first, beside the transmit history and that of the
tags.
-/
structure DmaReadLog where
  transmit : TransmitLog
  tags : TagLog
  requests : List (BitVec 32 × BitVec 10)

/-- Nothing has happened. -/
def DmaReadLog.start : DmaReadLog := ⟨.start, {}, []⟩

/-- The read request an event makes. -/
def Event.readRequest : Event → List (BitVec 32 × BitVec 10)
  | .dmaReadReq addr words => [(addr, words)]
  | _ => []

def DmaReadLog.record (s : PcieCtrl) (e : Event) (log : DmaReadLog) : DmaReadLog where
  transmit := log.transmit.record s e
  tags := log.tags.record s e
  requests := log.requests ++ e.readRequest

/-- The pages a read burst looks up have their bus addresses `pt`, DW-aligned like those of pages
are, in the configuration buffer.
-/
def ReadsMapped (pt : BitVec 32 → BitVec 32) (s : PcieCtrl) (e : Event) : Prop :=
  e = .splitDmaReadReq2 →
    s.pages.configBuffer.mem (pageEntry s.reads.dmaReadStartAddr)
        = pt (s.reads.dmaReadStartAddr >>> 12)
      ∧ (pt (s.reads.dmaReadStartAddr >>> 12)).toNat % 4 = 0

instance (pt : BitVec 32 → BitVec 32) (s : PcieCtrl) (e : Event)
    : Decidable (ReadsMapped pt s e) :=
  inferInstanceAs (Decidable (_ → _))

/-- The memory reads of the page requests that have no TLP yet. -/
def PcieCtrl.pendingReads (s : PcieCtrl) : List MemoryRead :=
  List.zipWith DMAReq.memoryRead s.reads.dmaPageReadReqQ.items (s.pages.busAddrs false)

/-- The bus addresses of the words not split off yet, of the current request and of those
behind it.
-/
def PcieCtrl.unsplitReads (pt : BitVec 32 → BitVec 32) (s : PcieCtrl) : List (BitVec 32) :=
  (wordAddrs s.reads.dmaReadStartAddr s.reads.dmaReadWords.toNat).map (busAddr pt)
    ++ targets pt (s.reads.dmaReadReqQ.items.map (fun req => (req.addr, req.words)))

/-- The read requests handed over are the memory reads `asked`; with those of the page requests they
are the bursts made, and ask for the words requested but for those not split off yet.
-/
structure DmaReading (pt : BitVec 32 → BitVec 32) (s : PcieCtrl) (log : DmaReadLog)
    (asked : List MemoryRead) : Prop where
  aligned : WordAligned s.reads.dmaReadStartAddr
  sized : ∀ req ∈ s.reads.dmaPageReadReqQ.items, 0 < req.words.toNat ∧ req.words.toNat ≤ 8
  paired : s.pages.LookupsPaired
  looked : s.reads.dmaPageReadReqQ.items.length = (s.pages.busAddrs false).length
  decoded : (ofSource .readRequest log.transmit.offered).map (fun b => memoryRead [b])
    = asked.map some
  short : ∀ r ∈ asked, r.Sized
  made : (asked ++ s.pendingReads).map MemoryRead.burst = log.tags.bursts
  plan : (asked ++ s.pendingReads).flatMap MemoryRead.targets ++ s.unsplitReads pt
    = targets pt log.requests

section Preservation

variable {pt : BitVec 32 → BitVec 32} {s s' : PcieCtrl} {log : DmaReadLog}
  {asked : List MemoryRead}

/-- The taken request is split from its aligned address on. -/
theorem PcieCtrl.splitDmaReadReq_takes (fires : s.splitDmaReadReq = some s')
    : s.reads.dmaReadWords = 0
      ∧ ∃ req dmaReadReqQ,
          s.reads.dmaReadReqQ.items = req :: dmaReadReqQ.items
          ∧ s' = { s with
              reads.dmaReadReqQ := dmaReadReqQ
              reads.dmaReadStartAddr := alignWord req.addr
              reads.dmaReadWords := req.words } := by
  unfold splitDmaReadReq at fires
  split at fires
  next idle =>
    obtain ⟨⟨req, reqQ⟩, taken, ⟨⟩⟩ := Option.bind_eq_some_iff.mp fires
    exact ⟨idle, req, reqQ, Fifo.deq_eq_some.mp taken, rfl⟩
  next => cases fires

/-- Other events leave the read requests handed over as they are. -/
theorem ofSource_readRequest_record {e : Event} (log : TransmitLog)
    (notRead : e ≠ .generateDmaReadTLP)
    : ofSource .readRequest (log.record s e).offered = ofSource .readRequest log.offered := by
  rw [TransmitLog.record, ofSource_append]
  rcases offers : s.offered e with _ | ⟨source, b⟩
  case none => exact List.append_nil _
  case some =>
    have other : source ≠ .readRequest := by
      rintro rfl
      exact notRead (offered_readRequest offers)
    rw [Option.toList_some, ofSource_singleton, if_neg other, List.append_nil]

/-- The words of a sized burst, as its memory read names them. -/
theorem DMAReq.memoryRead_targets (req : DMAReq) (bus : BitVec 32)
    : (req.memoryRead bus).targets = wordAddrs (dwAddr (bus + req.addr)) req.words.toNat := by
  rw [MemoryRead.targets, DMAReq.memoryRead, Nat.mul_div_cancel_left _ (by decide)]

/-- A page request becomes a memory read of its bus address. -/
theorem DmaReading.generate (inv : DmaReading pt s log asked)
    (fires : s.step .generateDmaReadTLP = some s')
    : ∃ asked', DmaReading pt s' (log.record s .generateDmaReadTLP) asked' := by
  obtain ⟨paired, moved⟩ := busAddrs_step inv.paired fires
  obtain ⟨req, pageQ, bus, addrQ, orderQ, tree, requested, looked, _, _, same⟩ :=
    PcieCtrl.generateDmaReadTLP_cases fires
  have addrs : s.pages.busAddrs false = bus :: s'.pages.busAddrs false := by
    have head : s.pages.bufAddrs false = bus :: addrQ.items := looked
    simpa [PcieCtrl.lookedUp, PcieCtrl.busUsed, head] using moved false
  have offers : s.offered .generateDmaReadTLP
      = some (.readRequest, s.readRequestOf req bus) := by
    simp [PcieCtrl.offered, Fifo.first_eq_some.mpr ⟨_, requested⟩,
      Fifo.first_eq_some.mpr ⟨_, looked⟩]
  have reads : s'.reads = { s.reads with dmaPageReadReqQ := pageQ } := by rw [same]
  obtain ⟨some, few⟩ := inv.sized req (by simp [requested])
  have pending : s.pendingReads = req.memoryRead bus :: s'.pendingReads := by
    rw [PcieCtrl.pendingReads, requested, addrs, PcieCtrl.pendingReads, reads]
    rfl
  have joined : asked ++ s.pendingReads
      = (asked ++ [req.memoryRead bus]) ++ s'.pendingReads := by
    rw [pending, List.append_assoc]
    rfl
  have requests : (log.record s .generateDmaReadTLP).requests = log.requests :=
    List.append_nil _
  refine ⟨asked ++ [req.memoryRead bus], ?_, ?_, paired, ?_, ?_, ?_, ?_, ?_⟩
  · rw [reads]
    exact inv.aligned
  · intro other member
    rw [reads] at member
    exact inv.sized other (by rw [requested]; exact List.mem_cons_of_mem _ member)
  · have lengths := inv.looked
    rw [requested, addrs, List.length_cons, List.length_cons] at lengths
    rw [reads]
    exact Nat.succ.inj lengths
  · rw [DmaReadLog.record, TransmitLog.record, offers, ofSource_append, Option.toList_some,
      ofSource_singleton, if_pos rfl, List.map_append, inv.decoded, List.map_append,
      List.map_singleton, List.map_singleton, PcieCtrl.readRequestOf,
      memoryRead_readRequestTLP _ bus some few]
  · intro r member
    rcases List.mem_append.mp member with old | new
    case inl => exact inv.short r old
    case inr =>
      obtain rfl := List.mem_singleton.mp new
      refine ⟨?_, ?_, ?_⟩
      all_goals
        simp only [DMAReq.memoryRead]
        omega
  · rw [← joined, inv.made]
    rfl
  · have unsplit : s'.unsplitReads pt = s.unsplitReads pt := by
      rw [PcieCtrl.unsplitReads, reads]
      rfl
    rw [← joined, unsplit, requests, inv.plan]

/-- Splitting a burst off adds a page request with the bus addresses of the burst's words. -/
theorem DmaReading.split (inv : DmaReading pt s log asked)
    (mapped : ReadsMapped pt s .splitDmaReadReq2)
    (fires : s.step .splitDmaReadReq2 = some s')
    : DmaReading pt s' (log.record s .splitDmaReadReq2) asked := by
  obtain ⟨entry, page⟩ := mapped rfl
  obtain ⟨paired, moved⟩ := busAddrs_step inv.paired fires
  obtain ⟨busy, tag, freeQ, pageQ, bufidxQ, respB, taken, requested, _, _, same⟩ :=
    PcieCtrl.splitDmaReadReq2_cases fires
  have covers := splitRead_covers inv.aligned busy
  have made := PcieCtrl.burstMade_eq taken
  generalize splitRead s.reads.dmaReadStartAddr s.reads.dmaReadWords = burst at *
  have addrs := (moved false).symm
  simp only [PcieCtrl.lookedUp, PcieCtrl.busUsed, Bool.false_eq_true, if_false, List.nil_append,
    entry] at addrs
  have reads : s'.reads = { s.reads with
      dmaPageReadReqQ := pageQ
      dmaReadWords := burst.wordsLeft
      dmaReadStartAddr := burst.startAddr } := by rw [same]
  have beats := ofSource_readRequest_record (s := s) (e := .splitDmaReadReq2) log.transmit
    (by decide)
  have requests : (log.record s .splitDmaReadReq2).requests = log.requests := List.append_nil _
  let req : DMAReq :=
    { addr := (s.reads.dmaReadStartAddr.extractLsb 11 0).zeroExtend 32, words := burst.words, tag }
  have pending : s'.pendingReads
      = s.pendingReads ++ [req.memoryRead (pt (s.reads.dmaReadStartAddr >>> 12))] := by
    simp only [PcieCtrl.pendingReads, reads, requested, addrs, List.zipWith_append inv.looked]
    rfl
  have target : (req.memoryRead (pt (s.reads.dmaReadStartAddr >>> 12))).targets
      = (wordAddrs s.reads.dmaReadStartAddr burst.words.toNat).map (busAddr pt) := by
    rw [DMAReq.memoryRead_targets, map_busAddr_wordAddrs pt covers.inPage]
    exact congrArg (wordAddrs · _) (dwAddr_busAddr inv.aligned page)
  refine ⟨?_, ?_, paired, ?_, ?_, inv.short, ?_, ?_⟩
  · rw [reads]
    exact covers.aligned
  · intro other member
    rw [reads] at member
    simp only [requested, List.mem_append, List.mem_singleton] at member
    rcases member with old | rfl
    case inl => exact inv.sized other old
    case inr => exact ⟨covers.nonempty, covers.short⟩
  · rw [reads]
    simp only [requested, addrs, List.length_append, inv.looked, List.length_singleton]
  · rw [DmaReadLog.record, beats]
    exact inv.decoded
  · rw [pending, ← List.append_assoc, List.map_append, inv.made, DmaReadLog.record]
    simp only [TagLog.record, made, Option.toList_some]
    rfl
  · have unsplit : s.unsplitReads pt
        = (wordAddrs s.reads.dmaReadStartAddr burst.words.toNat).map (busAddr pt)
          ++ s'.unsplitReads pt := by
      simp only [PcieCtrl.unsplitReads, reads, ← covers.total, wordAddrs_add, covers.next,
        List.map_append, List.append_assoc]
    rw [requests, ← inv.plan, unsplit, pending, ← List.append_assoc, List.flatMap_append,
      List.flatMap_singleton, target, List.append_assoc]

/-- Events other than the generator and the splitter of bursts leave the memory reads as they are,
and only move words not split off yet or add to them.
-/
theorem DmaReading.elsewhere {e : Event} (inv : DmaReading pt s log asked)
    (fires : s.step e = some s') (notRead : e ≠ .generateDmaReadTLP)
    (notSplit : e ≠ .splitDmaReadReq2)
    (aligned : WordAligned s'.reads.dmaReadStartAddr)
    (pages : s'.reads.dmaPageReadReqQ = s.reads.dmaPageReadReqQ)
    (unsplit : s'.unsplitReads pt = s.unsplitReads pt ++ targets pt e.readRequest)
    : DmaReading pt s' (log.record s e) asked := by
  obtain ⟨paired, moved⟩ := busAddrs_step inv.paired fires
  have addrs : s'.pages.busAddrs false = s.pages.busAddrs false := by
    have moved := moved false
    cases e
    case generateDmaReadTLP => exact absurd rfl notRead
    case splitDmaReadReq2 => exact absurd rfl notSplit
    all_goals
      simpa only [PcieCtrl.lookedUp, PcieCtrl.busUsed, List.append_nil, List.nil_append,
        Bool.false_eq_true, if_false] using moved.symm
  have pending : s'.pendingReads = s.pendingReads := by
    rw [PcieCtrl.pendingReads, pages, addrs]
    rfl
  have bursts : (log.tags.record s e).bursts = log.tags.bursts := by
    cases e
    case splitDmaReadReq2 => exact absurd rfl notSplit
    all_goals rfl
  refine ⟨aligned, ?_, paired, ?_, ?_, inv.short, ?_, ?_⟩
  · rw [pages]
    exact inv.sized
  · rw [pages, addrs]
    exact inv.looked
  · rw [DmaReadLog.record, ofSource_readRequest_record log.transmit notRead]
    exact inv.decoded
  · rw [pending, inv.made, DmaReadLog.record, bursts]
  · have requests : targets pt (log.record s e).requests
        = targets pt log.requests ++ targets pt e.readRequest := List.flatMap_append
    rw [pending, unsplit, requests, ← inv.plan, List.append_assoc]

/-- Every event keeps the arrangement. -/
theorem DmaReading.step {e : Event} (inv : DmaReading pt s log asked)
    (mapped : ReadsMapped pt s e) (fires : s.step e = some s')
    : ∃ asked', DmaReading pt s' (log.record s e) asked' := by
  have frame := (step_unchanged fires).reads
  cases e
  case generateDmaReadTLP => exact inv.generate fires
  case splitDmaReadReq2 => exact ⟨asked, inv.split mapped fires⟩
  case dmaReadReq addr words =>
    have elsewhere := inv.elsewhere fires (by simp) (by simp)
    simp only [PcieCtrl.step, PcieCtrl.dmaReadReq, Option.bind_eq_bind, Option.pure_def,
      Fifo.bind_enq_eq_some, Option.some.injEq] at fires
    obtain ⟨reqQ, _, put, rfl⟩ := fires
    refine ⟨asked, elsewhere inv.aligned rfl ?_⟩
    simp [PcieCtrl.unsplitReads, put, Event.readRequest, targets]
  case splitDmaReadReq =>
    have elsewhere := inv.elsewhere fires (by simp) (by simp)
    obtain ⟨idle, req, reqQ, next, rfl⟩ := PcieCtrl.splitDmaReadReq_takes fires
    refine ⟨asked, elsewhere (wordAligned_alignWord _) rfl ?_⟩
    simp [PcieCtrl.unsplitReads, next, idle, Event.readRequest, targets, requestTargets]
  all_goals
    have reads := frame (by simp [Event.parts])
    refine ⟨asked, inv.elsewhere fires (by simp) (by simp) ?_ (congrArg _ reads) ?_⟩
    · rw [reads]
      exact inv.aligned
    · simp [PcieCtrl.unsplitReads, reads, Event.readRequest, targets]

end Preservation

-----------------------------------------------------------------------------------------
-- Whole runs
-----------------------------------------------------------------------------------------

/-- No read request, and no TLP, is on its way. -/
def PcieCtrl.ReadsDrained (s : PcieCtrl) : Prop :=
  s.reads.dmaReadReqQ.items = []
  ∧ s.reads.dmaReadWords = 0
  ∧ s.reads.dmaPageReadReqQ.items = []
  ∧ s.TransmitDrained

instance (s : PcieCtrl) : Decidable s.ReadsDrained :=
  inferInstanceAs (Decidable (_ ∧ _ ∧ _ ∧ _))

/-- The memory reads sent ask, with the tags taken for them, for the first words requested, each at
the bus address of its page; each of them asks for one to eight words. All words requested are asked
for once nothing is on its way.
-/
structure ReadsAsked (pt : BitVec 32 → BitVec 32) (s : PcieCtrl) (log : DmaReadLog)
    (reads : List MemoryRead) : Prop where
  sent : (cutTLPs [] log.transmit.sent).filterMap memoryRead = reads
  sized : ∀ r ∈ reads, r.Sized
  places : reads.flatMap MemoryRead.targets <+: targets pt log.requests
  bursts : reads.map MemoryRead.burst <+: log.tags.bursts
  drained
    : s.ReadsDrained →
        reads.flatMap MemoryRead.targets = targets pt log.requests
        ∧ reads.map MemoryRead.burst = log.tags.bursts

section Runs

variable {pt : BitVec 32 → BitVec 32} {p : PowerUp} {state : PcieCtrl × DmaReadLog}

/-- In every run that looks up mapped pages, the arrangement holds; induction on the run. -/
theorem dmaReading (run : Reach (traced PcieCtrl.step DmaReadLog.record)
      (fun state e => ReadsMapped pt state.1 e) (mkPcieCtrl p, DmaReadLog.start) state)
    : ∃ asked, DmaReading pt state.1 state.2 asked := by
  refine run.invariant (P := fun state => ∃ asked, DmaReading pt state.1 state.2 asked) ?_ ?_
  · refine ⟨[], rfl, ?_, rfl, rfl, rfl, ?_, rfl, rfl⟩
    · exact fun req member => absurd member List.not_mem_nil
    · exact fun r member => absurd member List.not_mem_nil
  · intro before e after ⟨asked, inv⟩ mapped fires
    obtain ⟨fired, recorded⟩ := traced_eq_some.mp fires
    rw [recorded]
    exact inv.step mapped fired

/-- The memory reads sent ask for the words requested, in order, for every sequence of requests,
every other traffic and every order of rule firings.
-/
theorem dma_reads_ask (run : Reach (traced PcieCtrl.step DmaReadLog.record)
      (fun state e => ReadsMapped pt state.1 e) (mkPcieCtrl p, DmaReadLog.start) state)
    : ∃ reads, ReadsAsked pt state.1 state.2 reads := by
  obtain ⟨asked, reading⟩ := dmaReading run
  have transmitted := run.forget (r := TransmitLog.record) (f := DmaReadLog.transmit)
    (fun _ _ _ => rfl)
  obtain ⟨first, all⟩ := reads_sent transmitted
  have handed : (ofSource .readRequest state.2.transmit.offered).filterMap
      (fun b => memoryRead [b]) = asked := by
    calc (ofSource .readRequest state.2.transmit.offered).filterMap (fun b => memoryRead [b])
        = ((ofSource .readRequest state.2.transmit.offered).map
            (fun b => memoryRead [b])).filterMap id := by
          rw [List.filterMap_map]
          rfl
      _ = (asked.map some).filterMap id := by rw [reading.decoded]
      _ = asked := by
          rw [List.filterMap_map]
          exact List.filterMap_some
  rw [handed] at first all
  refine ⟨_, rfl, fun r member => reading.short r (first.subset member), ?_, ?_, ?_⟩
  · have places := (first.trans (List.prefix_append asked state.1.pendingReads)).flatMap
      MemoryRead.targets
    refine places.trans ?_
    rw [← reading.plan]
    exact List.prefix_append _ _
  · rw [← reading.made]
    exact (first.trans (List.prefix_append asked state.1.pendingReads)).map _
  · rintro ⟨noRequests, split, noPages, transmittedAll⟩
    have pending : state.1.pendingReads = [] := by
      rw [PcieCtrl.pendingReads, noPages, List.zipWith_nil_left]
    have unsplit : state.1.unsplitReads pt = [] := by
      rw [PcieCtrl.unsplitReads, noRequests, split]
      rfl
    have plan := reading.plan
    have made := reading.made
    rw [pending, unsplit, List.append_nil, List.append_nil] at plan
    rw [pending, List.append_nil] at made
    rw [all transmittedAll]
    exact ⟨plan, made⟩

end Runs

/-- The way of a read request TLP through the merge tree and the send queue. -/
def readRequestSent : List Event :=
  [.generateDmaReadTLP, .sendTLPmRule (.inside false (.inside true .merge)),
    .sendTLPmRule (.inside false (.ma1 true)), .sendTLPmRule (.inside false .merge),
    .sendTLPmRule (.ma1 false), .sendTLPmRule .merge, .relayTLPm, .relayTLP]

/-- A read of two words across the end of the first page, in two bursts. -/
def readAcrossPagesRun : List Event :=
  [.insertFreeTag, .insertFreeTag, .dmaReadReq 0xff0 2, .splitDmaReadReq, .splitDmaReadReq2,
    .relayBufIdxRead, .splitDmaReadReq2, .relayBufIdxRead]
    ++ readRequestSent ++ readRequestSent

/-- After that run the two words are asked for at the end of one page and at the start of the other,
with a tag each.
-/
theorem dma_reads_ask_acrossPages
    : ∃ (state : PcieCtrl × DmaReadLog) (reads : List MemoryRead),
        Reach (traced PcieCtrl.step DmaReadLog.record)
          (fun state e => ReadsMapped twoPages state.1 e)
          (mkPcieCtrl twoPagesPowerUp, DmaReadLog.start) state
        ∧ ReadsAsked twoPages state.1 state.2 reads
        ∧ reads.flatMap MemoryRead.targets = [0x1ff0, 0x8000]
        ∧ reads.map MemoryRead.burst = [(0, 4), (1, 4)] := by
  obtain ⟨state, run, seen⟩ := exec_reach_map (traced PcieCtrl.step DmaReadLog.record)
    (fun state e => ReadsMapped twoPages state.1 e)
    (mkPcieCtrl twoPagesPowerUp, DmaReadLog.start) readAcrossPagesRun
    (fun state => (targets twoPages state.2.requests, state.2.tags.bursts,
      decide state.1.ReadsDrained))
    ([0x1ff0, 0x8000], [(0, 4), (1, 4)], true) (by decide +kernel)
  simp only [Prod.mk.injEq, decide_eq_true_eq] at seen
  obtain ⟨places, bursts, drained⟩ := seen
  obtain ⟨reads, asks⟩ := dma_reads_ask run
  obtain ⟨all, made⟩ := asks.drained drained
  exact ⟨state, reads, run, asks, all.trans places, made.trans bursts⟩

end BluespecPcie

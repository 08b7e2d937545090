import BluespecPcie.PcieCtrl.Multiplexing

/-! Status reads and the DMA write data they report: when a completion stays behind. -/

namespace BluespecPcie

open Bluespec

-----------------------------------------------------------------------------------------
-- Words in the TLPs sent
-----------------------------------------------------------------------------------------

/-- The data words of a write TLP, four DWs each, by its header. -/
def tlpWords : List SendTLP → Nat
  | [] => 0
  | header :: _ => announcedDWs header.tlp / 4

/-- The data words of the write TLPs of a sequence. -/
def wordsIn (order : List (TlpSource × List SendTLP)) : Nat :=
  ((ofSource .write order).map tlpWords).sum

/-- One more TLP adds its words if it is a write. -/
theorem wordsIn_append (order : List (TlpSource × List SendTLP)) (source : TlpSource)
    (tlp : List SendTLP)
    : wordsIn (order ++ [(source, tlp)])
      = wordsIn order + if source = .write then tlpWords tlp else 0 := by
  rw [wordsIn, ofSource_append, ofSource_singleton]
  split <;> simp [wordsIn]

/-- Only the opening of a burst claims words, the ones it then has to send. -/
theorem OrderStep.words {remain remain' : BitVec 10}
    {order order' : List (TlpSource × List SendTLP)} {burst burst' : List SendTLP}
    (step : OrderStep remain remain' order burst order' burst')
    : wordsIn order' + tlpWords burst'
      = wordsIn order + tlpWords burst
        + if remain = 0 ∧ remain' > 0 then remain'.toNat else 0 := by
  have later {tlp : SendTLP} {beats : List SendTLP} (some : beats ≠ [])
      : tlpWords (beats ++ [tlp]) = tlpWords beats := by
    cases beats with
    | nil => exact absurd rfl some
    | cons header rest => rfl
  cases step with
  | same kept =>
      have none : ¬(remain = 0 ∧ remain' > 0) := by
        rintro ⟨idle, busy⟩
        rw [kept, idle] at busy
        exact absurd busy (by decide)
      rw [if_neg none]
      rfl
  | leave single idle kept _ =>
      have none : ¬(remain = 0 ∧ remain' > 0) := by
        rintro ⟨idle, busy⟩
        rw [kept, idle] at busy
        exact absurd busy (by decide)
      rw [if_neg none, wordsIn_append, if_neg single]
      omega
  | opens idle busy none announced =>
      subst none
      rw [if_pos ⟨idle, busy⟩]
      simp only [tlpWords, announced]
      omega
  | grows more _ some =>
      have none : ¬(remain = 0 ∧ remain' > 0) := by
        rintro ⟨idle, _⟩
        rw [idle] at more
        exact absurd more (by decide)
      rw [if_neg none, later some]
      rfl
  | closes final next some =>
      have none : ¬(remain = 0 ∧ remain' > 0) := by
        rintro ⟨idle, _⟩
        rw [idle] at final
        exact absurd final (by decide)
      rw [if_neg none, wordsIn_append, if_pos rfl, later some]
      simp [tlpWords]

-----------------------------------------------------------------------------------------
-- Completions behind the data supplied before them
-----------------------------------------------------------------------------------------

/-- The words requested and supplied so far, and for each completion the user sent, the words
that had been both when it was sent.
-/
structure StatusLog where
  transmit : TransmitLog
  requested : Nat
  supplied : Nat
  marks : List Nat

/-- Nothing has happened. -/
def StatusLog.start : StatusLog := ⟨.start, 0, 0, []⟩

def StatusLog.record (s : PcieCtrl) (e : Event) (log : StatusLog) : StatusLog where
  transmit := log.transmit.record s e
  requested := match e with
    | .dmaWriteReq _ words => log.requested + words.toNat
    | _ => log.requested
  supplied := match e with
    | .dmaWriteData _ => log.supplied + 1
    | _ => log.supplied
  marks := match e with
    | .dataSend _ _ => log.marks ++ [min log.requested log.supplied]
    | _ => log.marks

/-- Every user completion among the TLPs comes behind write TLPs that carry at least the
words of its mark.
-/
def StatusAfterData (marks : List Nat) (order : List (TlpSource × List SendTLP)) : Prop :=
  ∀ i tlp mark,
    order[i]? = some (.user, tlp) →
    marks[(ofSource .user (order.take i)).length]? = some mark →
    mark ≤ wordsIn (order.take i)

/-- The beats sent are TLPs of their sources in which no completion overtakes the data that
was requested and supplied before it was sent.
-/
def StatusInOrder (s : PcieCtrl) (log : StatusLog) : Prop :=
  ∃ order burst waiting,
    Multiplexed s log.transmit order burst waiting ∧ StatusAfterData log.marks order

/-- All words supplied, or all words requested, belong to bursts that have their header. -/
def DataClaimed (s : PcieCtrl) : Prop :=
  s.writes.dmaWriteWordIn = s.writes.dmaWriteWordOut
  ∨ ((∀ req ∈ s.writes.dmaWriteReqQ.items, req.words = 0)
    ∧ s.writes.dmaSendWords = 0
    ∧ s.writes.dmaPageWriteReqQ.items = [])

instance (s : PcieCtrl) : Decidable (DataClaimed s) := inferInstanceAs (Decidable (_ ∨ _))

/-- The user sends a completion only when the data before it is claimed. -/
def SendsBehindData (s : PcieCtrl) : Event → Prop
  | .dataSend _ _ => DataClaimed s
  | _ => True

instance (s : PcieCtrl) (e : Event) : Decidable (SendsBehindData s e) := by
  apply Event.casesOn (motive := fun e => Decidable (SendsBehindData s e)) e <;> intros <;>
    unfold SendsBehindData <;> infer_instance

-----------------------------------------------------------------------------------------
-- The invariant
-----------------------------------------------------------------------------------------

/-- Words of accepted requests that no burst has claimed yet. -/
def PcieCtrl.unclaimedWords (s : PcieCtrl) : Nat :=
  (s.writes.dmaPageWriteReqQ.items.map (fun req => req.words.toNat)).sum
    + s.writes.dmaSendWords.toNat
    + (s.writes.dmaWriteReqQ.items.map (fun req => req.words.toNat)).sum

/-- The counters of the write path count the words supplied and claimed, and those requested
are claimed or wait to be.
-/
structure WordsCounted (s : PcieCtrl) (requested supplied claimed : Nat) : Prop where
  queued : supplied + (s.writes.dataWordsRemain.toNat - 1)
    = claimed + s.writes.dmaWriteWordQ.items.length
  covered : claimed ≤ supplied
  inCount : s.writes.dmaWriteWordIn = BitVec.ofNat 10 supplied
  outCount : s.writes.dmaWriteWordOut = BitVec.ofNat 10 claimed
  requests : requested = claimed + s.unclaimedWords

/-- The difference of the counters is the number of words supplied and not claimed, since no
more than the queue's depth ever are.
-/
theorem WordsCounted.available {s : PcieCtrl} {requested supplied claimed : Nat}
    (counted : WordsCounted s requested supplied claimed)
    : (s.writes.dmaWriteWordIn - s.writes.dmaWriteWordOut).toNat = supplied - claimed := by
  have depth := s.writes.dmaWriteWordQ.bounded
  have queued := counted.queued
  have covered := counted.covered
  rw [counted.inCount, counted.outCount, BitVec.toNat_sub, BitVec.toNat_ofNat,
    BitVec.toNat_ofNat]
  omega

open PcieCtrl in
/-- The counters stay right; a burst's words are claimed when its header is generated. -/
theorem WordsCounted.step {s s' : PcieCtrl} {e : Event} {log : StatusLog} {claimed : Nat}
    (counted : WordsCounted s log.requested log.supplied claimed) (sized : PageRequestsSized s)
    (fires : s.step e = some s')
    : WordsCounted s' (log.record s e).requested (log.record s e).supplied
        (claimed + if s.writes.dataWordsRemain = 0 ∧ s'.writes.dataWordsRemain > 0
          then s'.writes.dataWordsRemain.toNat else 0) := by
  have frame := (step_unchanged fires).writes
  have available := counted.available
  obtain ⟨queued, covered, inCount, outCount, requests⟩ := counted
  have kept (same : s'.writes.dataWordsRemain = s.writes.dataWordsRemain)
      : ¬(s.writes.dataWordsRemain = 0 ∧ s'.writes.dataWordsRemain > 0) := by
    rintro ⟨idle, busy⟩
    rw [same, idle] at busy
    exact absurd busy (by decide)
  cases e
  case dmaWriteReq addr words =>
    obtain ⟨reqQ, put, rfl⟩ := dmaWriteReq_cases fires
    rw [if_neg (kept rfl)]
    refine ⟨queued, covered, inCount, outCount, ?_⟩
    simp only [StatusLog.record, unclaimedWords, put, List.map_append, List.sum_append,
      List.map_singleton, List.sum_singleton, requests]
    omega
  case dmaWriteData data =>
    obtain ⟨wordQ, put, rfl⟩ := dmaWriteData_cases fires
    rw [if_neg (kept rfl)]
    refine ⟨?_, ?_, ?_, outCount, requests⟩
    · simp only [StatusLog.record, put, List.length_append, List.length_singleton]
      omega
    · simp only [StatusLog.record]
      omega
    · simp only [StatusLog.record, inCount, BitVec.ofNat_add]
      rfl
  case splitDmaWriteReq =>
    obtain ⟨idle, req, reqQ, next, rfl⟩ := splitDmaWriteReq_cases fires
    rw [if_neg (kept rfl)]
    refine ⟨queued, covered, inCount, outCount, ?_⟩
    simp only [StatusLog.record, unclaimedWords, next, idle, List.map_cons, List.sum_cons,
      requests]
    simp only [BitVec.ofNat_eq_ofNat, BitVec.toNat_ofNat]
    omega
  case relayFreeWriteTag =>
    obtain ⟨tag, freeQ, stageQ, _, _, rfl⟩ := relayFreeWriteTag_cases fires
    rw [if_neg (kept rfl)]
    exact ⟨queued, covered, inCount, outCount, requests⟩
  case splitDmaWriteReq2 =>
    obtain ⟨busy, tag, _, _, pageQ, _, _, _, _, put, _, _, rfl⟩ :=
      splitDmaWriteReq2_cases fires
    have covers := splitRead_covers sized.aligned busy
    rw [← splitWrite_eq] at covers
    rw [if_neg (kept rfl)]
    refine ⟨queued, covered, inCount, outCount, ?_⟩
    have total := covers.total
    simp only [StatusLog.record, unclaimedWords, put, List.map_append, List.sum_append,
      List.map_singleton, List.sum_singleton, requests]
    omega
  case generateHeaderTLP =>
    obtain ⟨idle, req, pageQ, bus, addrQ, data, wordQ, sendQ, enough, requested, _, supplied, _,
      rfl⟩ := generateHeaderTLP_cases fires
    obtain ⟨some, _⟩ := sized.sized req (by simp [requested])
    have enough := BitVec.le_def.mp enough
    rw [available] at enough
    rw [if_pos ⟨idle, by simp only; bv_omega⟩]
    rw [idle, supplied, List.length_cons] at queued
    refine ⟨?_, ?_, inCount, ?_, ?_⟩
    · simp only [StatusLog.record]
      simp only [BitVec.ofNat_eq_ofNat, BitVec.toNat_ofNat] at queued
      omega
    · simp only [StatusLog.record]
      omega
    · simp only [outCount, BitVec.ofNat_add, BitVec.ofNat_toNat, BitVec.setWidth_eq]
    · simp only [StatusLog.record, unclaimedWords, requested, List.map_cons, List.sum_cons,
        requests]
      omega
  case generateDataTLP =>
    rcases generateDataTLP_cases fires with ⟨more, d, wordQ, sendQ, supplied, _, rfl⟩
      | ⟨busy, final, tag, busyQ, freeQ, sendQ, _, _, _, rfl⟩
    · have bigger : 1 < s.writes.dataWordsRemain.toNat := BitVec.lt_def.mp more
      have busy : ¬s.writes.dataWordsRemain = 0 := by
        rintro idle
        rw [idle] at bigger
        exact absurd bigger (by decide)
      rw [if_neg (fun both => busy both.1)]
      refine ⟨?_, covered, inCount, outCount, requests⟩
      rw [supplied, List.length_cons] at queued
      have less : (s.writes.dataWordsRemain - 1).toNat = s.writes.dataWordsRemain.toNat - 1 :=
        BitVec.toNat_sub_of_le (BitVec.le_of_lt more)
      simp only [StatusLog.record, less]
      omega
    · have one : s.writes.dataWordsRemain = 1 := by bv_omega
      rw [if_neg (fun both => absurd (one.symm.trans both.1) (by decide))]
      refine ⟨?_, covered, inCount, outCount, requests⟩
      rw [one] at queued ⊢
      exact queued
  all_goals
    have writes := frame (by simp [Event.parts])
    rw [if_neg (kept (by rw [writes]))]
    refine ⟨?_, covered, ?_, ?_, ?_⟩
    · simpa only [StatusLog.record, writes, Nat.add_zero] using queued
    · simpa only [StatusLog.record, writes] using inCount
    · simpa only [writes, Nat.add_zero] using outCount
    · simpa only [StatusLog.record, unclaimedWords, writes, Nat.add_zero] using requests

/-- The TLPs through the send queue with the counts of words: every completion the user sent
is marked with words already claimed, and none in the queue came before the words of its mark.
-/
structure StatusOrdered (s : PcieCtrl) (log : StatusLog)
    (order : List (TlpSource × List SendTLP)) (burst : List SendTLP)
    (waiting : TlpSource → List SendTLP) : Prop where
  sized : PageRequestsSized s
  multiplexed : Multiplexed s log.transmit order burst waiting
  counted : WordsCounted s log.requested log.supplied (wordsIn order + tlpWords burst)
  marked : log.marks.length = (ofSource .user log.transmit.offered).length
  bounded : ∀ mark ∈ log.marks, mark ≤ wordsIn order + tlpWords burst
  ordered : StatusAfterData log.marks order

section Preservation

variable {s s' : PcieCtrl} {log : StatusLog} {order order' : List (TlpSource × List SendTLP)}
  {burst burst' : List SendTLP} {waiting waiting' : TlpSource → List SendTLP}

/-- With the data claimed, what was requested and supplied is claimed. -/
theorem StatusOrdered.claimed (inv : StatusOrdered s log order burst waiting)
    (data : DataClaimed s)
    : min log.requested log.supplied ≤ wordsIn order + tlpWords burst := by
  rcases data with equal | ⟨noRequests, split, noPages⟩
  · have available := inv.counted.available
    rw [equal, BitVec.sub_self] at available
    have none : log.supplied - (wordsIn order + tlpWords burst) = 0 := available.symm
    omega
  · have zero : (s.writes.dmaWriteReqQ.items.map (fun req => req.words.toNat)).sum = 0 := by
      rw [List.sum_eq_zero_iff_forall_eq_nat]
      intro words member
      obtain ⟨req, queued, rfl⟩ := List.mem_map.mp member
      rw [noRequests req queued]
      rfl
    have requests := inv.counted.requests
    rw [PcieCtrl.unclaimedWords, zero, split, noPages] at requests
    simp only [List.map_nil, List.sum_nil, BitVec.ofNat_eq_ofNat, BitVec.toNat_ofNat]
      at requests
    omega

/-- A TLP that takes its place behind `order` comes behind all the words in it. -/
theorem StatusAfterData.append {marks : List Nat} (ordered : StatusAfterData marks order)
    {entry : TlpSource × List SendTLP}
    (bounded : entry.1 = .user → ∀ mark ∈ marks, mark ≤ wordsIn order)
    : StatusAfterData marks (order ++ [entry]) := by
  intro i tlp mark entryAt marked
  rcases Nat.lt_or_ge i order.length with earlier | later
  · rw [List.getElem?_append_left earlier] at entryAt
    rw [List.take_append_of_le_length (Nat.le_of_lt earlier)] at marked ⊢
    exact ordered i tlp mark entryAt marked
  · have here : i = order.length := by
      have within := (List.getElem?_eq_some_iff.mp entryAt).1
      rw [List.length_append, List.length_singleton] at within
      omega
    subst here
    rw [List.getElem?_concat_length] at entryAt
    rw [List.take_left' rfl] at marked ⊢
    exact bounded (by rw [Option.some.inj entryAt]) mark (List.mem_of_getElem? marked)

/-- A mark for a completion that is not in the queue yet changes nothing. -/
theorem StatusAfterData.mark {marks : List Nat} (ordered : StatusAfterData marks order)
    (known : (ofSource .user order).length ≤ marks.length) (mark : Nat)
    : StatusAfterData (marks ++ [mark]) order := by
  intro i tlp found entryAt marked
  have before : (ofSource .user (order.take i)).length < marks.length := by
    have within := (List.getElem?_eq_some_iff.mp entryAt).1
    have split : order = order.take i ++ (.user, tlp) :: order.drop (i + 1) := by
      rw [← (List.getElem?_eq_some_iff.mp entryAt).2, List.getElem_cons_drop,
        List.take_append_drop]
    rw [split, ofSource_append] at known
    have one : 0 < (ofSource .user ((.user, tlp) :: order.drop (i + 1))).length := by
      simp [ofSource]
    rw [List.length_append] at known
    omega
  rw [List.getElem?_append_left before] at marked
  exact ordered i tlp found entryAt marked

/-- The user TLPs in the queue are among those the user sent. -/
theorem StatusOrdered.known (inv : StatusOrdered s log order burst waiting)
    : (ofSource .user order).length ≤ log.marks.length := by
  have sources := congrArg List.length (inv.multiplexed.sources .user)
  have each (tlps : List (List SendTLP)) (whole : ∀ t ∈ tlps, WholeTLP t)
      : tlps.length ≤ tlps.flatten.length := by
    induction tlps with
    | nil => exact Nat.le_refl _
    | cons t tlps ih =>
        obtain ⟨header, rest, rfl, _⟩ := (whole t (by simp)).dws
        have later := ih (fun other member => whole other (by simp [member]))
        simp only [List.length_cons, List.flatten_cons, List.length_append]
        omega
  have whole : ∀ t ∈ ofSource .user order, WholeTLP t := by
    intro t member
    obtain ⟨entry, inOrder, rfl⟩ := List.mem_map.mp member
    exact inv.multiplexed.whole entry (List.mem_filter.mp inOrder).1
  have fewer := each _ whole
  rw [inv.marked, sources, List.length_append, List.length_append]
  omega

/-- Only `dataSend` hands over user beats. -/
theorem offered_user {e : Event} {b : SendTLP} (offers : s.offered e = some (.user, b))
    : ∃ ioreq data, e = .dataSend ioreq data := by
  cases e <;>
    simp only [PcieCtrl.offered, Option.bind_eq_bind, Option.pure_def, reduceCtorEq,
      Option.bind_eq_some_iff, Option.some.injEq, Prod.mk.injEq, false_and, and_false,
      exists_false] at offers
  case filterStatReadTLP =>
    obtain ⟨beat, _, offers⟩ := offers
    split at offers
    next => simp [Option.bind_eq_some_iff] at offers
    next => cases offers
  case procIOWrite =>
    obtain ⟨beat, _, offers⟩ := offers
    split at offers <;> cases offers
  case dataSend ioreq data => exact ⟨ioreq, data, rfl⟩
  case generateDataTLP =>
    split at offers <;> simp [Option.bind_eq_some_iff] at offers

/-- Each completion the user sends gets one mark. -/
theorem marks_record {e : Event} (log : StatusLog)
    (marked : log.marks.length = (ofSource .user log.transmit.offered).length)
    : (log.record s e).marks.length
      = (ofSource .user (log.record s e).transmit.offered).length := by
  by_cases sends : ∃ ioreq data, e = .dataSend ioreq data
  · obtain ⟨ioreq, data, rfl⟩ := sends
    simp [StatusLog.record, TransmitLog.record, PcieCtrl.offered, ofSource_append,
      ofSource_singleton, marked]
  · have none : ofSource .user (s.offered e).toList = [] := by
      rw [ofSource, List.map_eq_nil_iff, List.filter_eq_nil_iff]
      rintro ⟨source, b⟩ member user
      obtain rfl : source = .user := of_decide_eq_true user
      exact sends (offered_user (Option.mem_toList.mp member))
    have same : (log.record s e).marks = log.marks := by
      cases e
      case dataSend ioreq data => exact absurd ⟨ioreq, data, rfl⟩ sends
      all_goals rfl
    have transmit : (log.record s e).transmit.offered
        = log.transmit.offered ++ (s.offered e).toList := rfl
    rw [same, transmit, ofSource_append, none, List.append_nil, marked]

/-- When the user sends a completion, its mark is of words already claimed. -/
theorem StatusOrdered.mark {e : Event} (inv : StatusOrdered s log order burst waiting)
    (allowed : SendsBehindData s e)
    : (∀ mark ∈ (log.record s e).marks, mark ≤ wordsIn order + tlpWords burst)
      ∧ StatusAfterData (log.record s e).marks order := by
  cases e
  case dataSend ioreq data =>
    refine ⟨?_, inv.ordered.mark inv.known _⟩
    intro mark member
    rcases List.mem_append.mp member with old | new
    · exact inv.bounded mark old
    · rw [List.mem_singleton.mp new]
      exact inv.claimed allowed
  all_goals exact ⟨inv.bounded, inv.ordered⟩

/-- Every allowed event keeps the completions behind their data. -/
theorem StatusOrdered.step {e : Event} (inv : StatusOrdered s log order burst waiting)
    (allowed : SendsBehindData s e) (fires : s.step e = some s')
    : ∃ order' burst' waiting', StatusOrdered s' (log.record s e) order' burst' waiting' := by
  obtain ⟨order', burst', waiting', next, shape⟩ := inv.multiplexed.step inv.sized
    (fun _ _ offers single => offered_whole offers single) (tx_step fires)
  obtain ⟨bounded, ordered⟩ := inv.mark allowed
  have words := shape.words
  have counted := inv.counted.step inv.sized fires
  rw [← words] at counted
  refine ⟨order', burst', waiting', inv.sized.step fires, next, counted,
    marks_record log inv.marked, ?_, ?_⟩
  · intro mark member
    have claimed := bounded mark member
    omega
  · cases shape with
    | same _ => exact ordered
    | leave _ _ _ none =>
        subst none
        exact ordered.append (fun _ => bounded)
    | opens _ _ _ _ => exact ordered
    | grows _ _ _ => exact ordered
    | closes _ _ _ => exact ordered.append (fun user => by cases user)

end Preservation

-----------------------------------------------------------------------------------------
-- Whole runs
-----------------------------------------------------------------------------------------

/-- At reset no word is counted. -/
theorem StatusOrdered.init (p : PowerUp)
    : StatusOrdered (mkPcieCtrl p) .start [] [] (fun _ => []) :=
  ⟨PageRequestsSized.init p, Multiplexed.init p, ⟨rfl, Nat.le_refl _, rfl, rfl, rfl⟩, rfl,
    by simp [StatusLog.start], fun i _ _ entryAt _ => by simp at entryAt⟩

/-- In every run in which the user sends completions only behind claimed data, no completion
overtakes the data it was sent behind; induction on the run.
-/
theorem status_in_order {p : PowerUp} {state : PcieCtrl × StatusLog}
    (run : Reach (traced PcieCtrl.step StatusLog.record)
      (fun state e => SendsBehindData state.1 e) (mkPcieCtrl p, StatusLog.start) state)
    : StatusInOrder state.1 state.2 := by
  have all : ∃ order burst waiting, StatusOrdered state.1 state.2 order burst waiting := by
    refine run.invariant (P := fun state => ∃ order burst waiting,
      StatusOrdered state.1 state.2 order burst waiting) ?_ ?_
    · exact ⟨[], [], fun _ => [], StatusOrdered.init p⟩
    · rintro ⟨s, log⟩ e ⟨s', log'⟩ ⟨order, burst, waiting, inv⟩ allowed fires
      obtain ⟨fired, rfl⟩ := traced_eq_some.mp fires
      exact inv.step allowed fired
  obtain ⟨order, burst, waiting, inv⟩ := all
  exact ⟨order, burst, waiting, inv.multiplexed, inv.ordered⟩

/-- A write of one word, supplied and requested, with its header generated. -/
def claimedRun : List Event :=
  [.insertFreeTag, .relayFreeWriteTag, .dmaWriteReq 0 1, .dmaWriteData 7, .splitDmaWriteReq,
    .splitDmaWriteReq2, .relayBufIdxRead, .generateHeaderTLP]

/-- The completion of a status read leaving the merge tree, from the user's call on. -/
def completionRun : List Event :=
  [.dataSend default 5, .relayUserSendTLP, .sendTLPmRule (.inside true (.inside false .merge)),
    .sendTLPmRule (.inside true (.ma1 false)), .sendTLPmRule (.inside true .merge),
    .sendTLPmRule (.ma1 true), .sendTLPmRule .merge, .relayTLPm]

/-- If only user beats were handed over, the first TLP is the user's; when it was sent behind a
word, it overtook it.
-/
theorem not_inOrder {s : PcieCtrl} {log : StatusLog} {mark : Nat} {marks : List Nat}
    (idle : s.writes.dataWordsRemain = 0) (sent : log.transmit.sent ≠ [])
    (users : ∀ entry ∈ log.transmit.offered, entry.1 = .user)
    (marked : log.marks = mark :: marks) (behind : 0 < mark)
    : ¬StatusInOrder s log := by
  rintro ⟨order, burst, waiting, inv, ordered⟩
  have beats := inv.beats
  rw [inv.underWay.empty idle, List.append_nil] at beats
  cases order with
  | nil =>
      rw [List.flatMap_nil, List.append_eq_nil_iff] at beats
      exact sent beats.1
  | cons entry order =>
      obtain ⟨source, tlp⟩ := entry
      have first : source = .user := by
        by_contra other
        have none : ofSource source log.transmit.offered = [] := by
          rw [ofSource, List.map_eq_nil_iff, List.filter_eq_nil_iff]
          intro offer member mine
          exact other ((of_decide_eq_true mine).symm.trans (users offer member))
        have sources := inv.sources source
        obtain ⟨header, rest, whole, _⟩ := (inv.whole (source, tlp) (by simp)).dws
        have here : ofSource source ((source, tlp) :: order) = tlp :: ofSource source order := by
          simp [ofSource]
        rw [none, here, List.flatten_cons, show tlp = header :: rest from whole] at sources
        cases sources
      subst first
      have mark_le := ordered 0 tlp mark rfl (by rw [marked]; rfl)
      exact absurd mark_le (Nat.not_le.mpr behind)

/-- A word requested and supplied, whose burst has no header yet. -/
def unclaimedRun : List Event :=
  [.dmaWriteReq 0 1, .dmaWriteData 7]

/-- Not every run keeps completions behind the data: the completion of `unclaimedRun` is
transmitted while the word it was sent behind still waits for its header.
-/
theorem status_overtakes
    : ¬∀ state : PcieCtrl × StatusLog,
        Reach (traced PcieCtrl.step StatusLog.record) anyEvent
          (mkPcieCtrl default, StatusLog.start) state →
        StatusInOrder state.1 state.2 := by
  intro claim
  obtain ⟨state, run, seen⟩ := exec_reach_map (traced PcieCtrl.step StatusLog.record) anyEvent
    (mkPcieCtrl default, StatusLog.start)
    (unclaimedRun ++ completionRun ++ [.relayTLP])
    (fun state => (state.2.marks, state.2.transmit.sent.length,
      state.2.transmit.offered.map Prod.fst, state.1.writes.dataWordsRemain)) ([1], 1, [.user], 0)
    (by
      simp only [mkPcieCtrl, mkMergeN_eight]
      decide +kernel)
  simp only [Prod.mk.injEq] at seen
  obtain ⟨marks, sent, sources, idle⟩ := seen
  refine not_inOrder idle ?_ ?_ marks Nat.one_pos (claim state run)
  · intro none
    rw [none] at sent
    cases sent
  · intro entry member
    have source : entry.1 ∈ state.2.transmit.offered.map Prod.fst :=
      List.mem_map_of_mem member
    rw [sources] at source
    exact List.mem_singleton.mp source

/-- Behind a claimed word, the completion goes out after the write. -/
theorem status_in_order_claimedRun
    : ∃ state : PcieCtrl × StatusLog,
        Reach (traced PcieCtrl.step StatusLog.record)
          (fun state e => SendsBehindData state.1 e) (mkPcieCtrl default, StatusLog.start) state
        ∧ state.2.marks = [1]
        ∧ state.2.transmit.sent.map SendTLP.last = [0, 1, 1]
        ∧ StatusInOrder state.1 state.2 := by
  obtain ⟨state, run, seen⟩ := exec_reach_map (traced PcieCtrl.step StatusLog.record)
    (fun state e => SendsBehindData state.1 e) (mkPcieCtrl default, StatusLog.start)
    (claimedRun ++ [.generateDataTLP] ++ completionRun ++ [.relayTLP, .relayTLP, .relayTLP])
    (fun state => (state.2.marks, state.2.transmit.sent.map SendTLP.last)) ([1], [0, 1, 1])
    (by
      simp only [mkPcieCtrl, mkMergeN_eight]
      decide +kernel)
  simp only [Prod.mk.injEq] at seen
  exact ⟨state, run, seen.1, seen.2, status_in_order run⟩

end BluespecPcie

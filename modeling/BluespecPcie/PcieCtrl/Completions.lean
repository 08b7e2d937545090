import BluespecPcie.PcieCtrl.Multiplexing
import BluespecPcie.PcieCtrl.Requests
import Mathlib.Tactic.IntervalCases

/-! The completions among the TLPs sent, and the sources they came from. -/

namespace BluespecPcie

open Bluespec

-----------------------------------------------------------------------------------------
-- Completions by their header
-----------------------------------------------------------------------------------------

/-- The first beat of a TLP that is a completion. -/
def completionOf : List SendTLP → Option SendTLP
  | [] => none
  | header :: _ => if isCompletion (tlpType header.tlp) then some header else none

/-- The completions of a sequence of TLPs. -/
def completions (tlps : List (List SendTLP)) : List SendTLP := tlps.filterMap completionOf

/-- The entries of the sources that send completions. -/
def answersIn (entries : List (TlpSource × SendTLP)) : List (TlpSource × SendTLP) :=
  entries.filter (fun entry => entry.1.answers)

theorem answersIn_append (xs ys : List (TlpSource × SendTLP))
    : answersIn (xs ++ ys) = answersIn xs ++ answersIn ys :=
  List.filter_append ..

/-- More beats of a TLP make it no other. -/
theorem completionOf_append {front : List SendTLP} (some : front ≠ []) (b : SendTLP)
    : completionOf (front ++ [b]) = completionOf front := by
  cases front with
  | nil => exact absurd rfl some
  | cons header rest => rfl

section Headers

variable (completer rid : BitVec 16) (tag : BitVec 8) (tc : BitVec 3) (td ep : BitVec 1)
  (attr : BitVec 2) (lower : BitVec 7) (data : BitVec 32) (dmaAddr : BitVec 32)
  (words : BitVec 10) (word : DMAWord)

theorem tlpType_completionTLP
    : tlpType (completionTLP completer rid tag tc td ep attr lower data).tlp
      = type_completion := by
  rw [tlpType_eq, completionTLP, (dword_packDWs ..).1]
  apply BitVec.eq_of_getLsbD_eq
  intro i within
  interval_cases i <;>
    simp only [dwType, BitVec.getLsbD_extractLsb, BitVec.getLsbD_append] <;> rfl

theorem tlpType_writeCompletionTLP
    : tlpType (writeCompletionTLP completer rid tag lower).tlp = type_completionn := by
  rw [tlpType_eq, writeCompletionTLP, (dword_packDWs ..).1]
  rfl

theorem tlpType_readRequestTLP
    : tlpType (readRequestTLP completer tag dmaAddr words).tlp = type_rd32_mem := by
  rw [tlpType_eq, readRequestTLP, memoryHeader, (dword_packDWs ..).1]
  apply BitVec.eq_of_getLsbD_eq
  intro i within
  interval_cases i <;>
    simp only [dwType, BitVec.getLsbD_extractLsb, BitVec.getLsbD_append] <;> rfl

theorem tlpType_writeHeaderTLP
    : tlpType (writeHeaderTLP completer tag dmaAddr words word).tlp = type_wr32_mem := by
  rw [tlpType_eq, writeHeaderTLP, memoryHeader, (dword_packDWs ..).1]
  apply BitVec.eq_of_getLsbD_eq
  intro i within
  interval_cases i <;>
    simp only [dwType, BitVec.getLsbD_extractLsb, BitVec.getLsbD_append] <;> rfl

end Headers

/-- A beat that is not the write generator's is a completion exactly if its source answers
requests.
-/
theorem offered_isCompletion {s : PcieCtrl} {e : Event} {source : TlpSource} {b : SendTLP}
    (offers : s.offered e = some (source, b)) (single : source ≠ .write)
    : isCompletion (tlpType b.tlp) = source.answers := by
  cases e <;>
    simp only [PcieCtrl.offered, Option.bind_eq_bind, Option.pure_def, reduceCtorEq,
      Option.bind_eq_some_iff, Option.some.injEq, Prod.mk.injEq] at offers
  case filterStatReadTLP =>
    obtain ⟨beat, _, offers⟩ := offers
    split at offers
    next read =>
      simp only [Option.bind_eq_some_iff, Option.some.injEq, Prod.mk.injEq] at offers
      obtain ⟨data, _, rfl, rfl⟩ := offers
      rw [PcieCtrl.statusCompletion, tlpType_completionTLP]
      rfl
    next => cases offers
  case procIOWrite =>
    obtain ⟨beat, _, offers⟩ := offers
    split at offers
    next io =>
      cases offers
      rw [PcieCtrl.ioWriteCompletion, tlpType_writeCompletionTLP]
      rfl
    next => cases offers
  case completeIORead =>
    obtain ⟨_, _, _, _, rfl, rfl⟩ := offers
    rw [PcieCtrl.configCompletion, tlpType_completionTLP]
    rfl
  case generateDmaReadTLP =>
    obtain ⟨_, _, _, _, rfl, rfl⟩ := offers
    rw [PcieCtrl.readRequestOf, tlpType_readRequestTLP]
    rfl
  case dataSend ioreq data =>
    obtain ⟨rfl, rfl⟩ := offers
    rw [PcieCtrl.userCompletion, tlpType_completionTLP]
    rfl
  case generateHeaderTLP =>
    obtain ⟨_, _, _, _, _, _, rfl, _⟩ := offers
    exact absurd rfl single
  case generateDataTLP =>
    split at offers
    next =>
      simp only [Option.bind_eq_some_iff, Option.some.injEq, Prod.mk.injEq] at offers
      obtain ⟨_, _, rfl, _⟩ := offers
      exact absurd rfl single
    next =>
      simp only [Option.some.injEq, Prod.mk.injEq] at offers
      exact absurd offers.1.symm single

-----------------------------------------------------------------------------------------
-- Every TLP through the send queue by its source
-----------------------------------------------------------------------------------------

/-- The write TLPs handed over, and the one under way, start with a memory write header. -/
structure WritesHeaded (s : PcieCtrl) (log : TransmitLog) : Prop where
  cut : ∀ tlp ∈ cutTLPs [] (ofSource .write log.offered), completionOf tlp = none
  opened : completionOf (openTLP [] (ofSource .write log.offered)) = none
  underWay : openTLP [] (ofSource .write log.offered) = [] ↔ s.writes.dataWordsRemain = 0

/-- What is handed over keeps write TLPs headed. -/
theorem WritesHeaded.step {s s' : PcieCtrl} {log : TransmitLog} {e : Event}
    (headed : WritesHeaded s log) (sized : PageRequestsSized s)
    (fires : s.step e = some s')
    : WritesHeaded s' (log.record s e) := by
  obtain ⟨cut, opened, underWay⟩ := headed
  have kept {offer : Option (TlpSource × SendTLP)} (other : ∀ b, offer ≠ some (.write, b))
      (same : s.offered e = offer)
      (remain : s'.writes.dataWordsRemain = s.writes.dataWordsRemain)
      : WritesHeaded s' (log.record s e) := by
    have none : ofSource .write (log.record s e).offered = ofSource .write log.offered := by
      rw [TransmitLog.record, ofSource_append, same]
      cases offer with
      | none => exact List.append_nil _
      | some entry =>
          obtain ⟨source, b⟩ := entry
          have notWrite : source ≠ .write := by
            rintro rfl
            exact other b rfl
          rw [Option.toList_some, ofSource_singleton, if_neg notWrite, List.append_nil]
    refine ⟨?_, ?_, ?_⟩
    · rw [none]
      exact cut
    · rw [none]
      exact opened
    · rw [none, remain]
      exact underWay
  have more {b : SendTLP} (same : s.offered e = some (.write, b))
      : ofSource .write (log.record s e).offered = ofSource .write log.offered ++ [b] := by
    rw [TransmitLog.record, ofSource_append, same, Option.toList_some, ofSource_singleton,
      if_pos rfl]
  have moves := tx_step fires
  generalize offer : s.offered e = offered at moves
  generalize s.transmitted e = send at moves
  cases moves with
  | other _ remain => exact kept (fun _ => by simp) offer remain
  | single wired _ _ _ remain =>
      refine kept (fun _ write => ?_) offer remain
      cases write
      cases wired
  | dataSend _ _ remain => exact kept (fun _ => by simp) offer remain
  | relayUserSendTLP _ _ _ remain => exact kept (fun _ => by simp) offer remain
  | merge _ _ remain => exact kept (fun _ => by simp) offer remain
  | relayTLPm _ _ _ _ remain => exact kept (fun _ => by simp) offer remain
  | relayTLP _ _ remain => exact kept (fun _ => by simp) offer remain
  | @header tlp req busAddr data _ idle requested built _ _ remain =>
      obtain ⟨cutSame, openMore⟩ := cutTLPs_concat [] (ofSource .write log.offered) tlp
      have first : ¬tlp.last = 1#1 := by
        rw [built]
        exact (by decide : ¬(0#1 = 1#1))
      rw [if_neg first] at cutSame openMore
      rw [underWay.mpr idle] at openMore
      obtain ⟨some, few⟩ := sized.sized req requested
      refine ⟨?_, ?_, ?_⟩
      · rw [more offer, cutSame, List.append_nil]
        exact cut
      · rw [more offer, openMore, built, PcieCtrl.writeHeaderOf, List.nil_append, completionOf,
          tlpType_writeHeaderTLP]
        rfl
      · rw [more offer, openMore, remain]
        constructor
        · intro empty
          cases empty
        · intro zero
          rw [zero] at some
          exact absurd some (by decide)
  | @data tlp beatData _ busy built _ _ remain =>
      obtain ⟨cutMore, openMore⟩ := cutTLPs_concat [] (ofSource .write log.offered) tlp
      have front : openTLP [] (ofSource .write log.offered) ≠ [] := by
        intro empty
        rw [underWay.mp empty] at busy
        exact absurd busy (by decide)
      have extended := completionOf_append front tlp
      rw [opened] at extended
      by_cases several : s.writes.dataWordsRemain > 1
      · rw [if_pos several] at built
        have goesOn : ¬tlp.last = 1#1 := by
          rw [built]
          exact (by decide : ¬(0#1 = 1#1))
        rw [if_neg goesOn] at cutMore openMore
        refine ⟨?_, ?_, ?_⟩
        · rw [more offer, cutMore, List.append_nil]
          exact cut
        · rw [more offer, openMore]
          exact extended
        · rw [more offer, openMore, remain]
          constructor
          · intro empty
            simp at empty
          · intro zero
            bv_omega
      · rw [if_neg several] at built
        have closes : tlp.last = 1#1 := by
          rw [built]
          rfl
        rw [if_pos closes] at cutMore openMore
        refine ⟨?_, ?_, ?_⟩
        · rw [more offer, cutMore]
          intro t member
          rcases List.mem_append.mp member with old | new
          · exact cut t old
          · rw [List.mem_singleton.mp new]
            exact extended
        · rw [more offer, openMore]
          rfl
        · rw [more offer, openMore, remain]
          have one : s.writes.dataWordsRemain = 1 := by bv_omega
          rw [one]
          exact ⟨fun _ => rfl, fun _ => rfl⟩

/-- What is handed over besides writes is a TLP in one beat, a completion or none by its
source; and write TLPs are headed.
-/
structure HandedOver (s : PcieCtrl) (log : TransmitLog) : Prop where
  sized : PageRequestsSized s
  headed : WritesHeaded s log
  single : ∀ entry ∈ log.offered, entry.1 ≠ .write →
    WholeTLP [entry.2] ∧ isCompletion (tlpType entry.2.tlp) = entry.1.answers

/-- This holds after every run from reset. -/
theorem handedOver {p : PowerUp} {state : PcieCtrl × TransmitLog}
    (run : Reach (traced PcieCtrl.step TransmitLog.record) anyEvent
      (mkPcieCtrl p, TransmitLog.start) state)
    : HandedOver state.1 state.2 := by
  refine run.invariant (P := fun state => HandedOver state.1 state.2) ?_ ?_
  · refine ⟨PageRequestsSized.init p, ⟨?_, rfl, ?_⟩, ?_⟩
    · intro tlp member
      cases member
    · exact ⟨fun _ => rfl, fun _ => rfl⟩
    · intro entry member
      cases member
  · rintro ⟨s, log⟩ e ⟨s', log'⟩ inv _ fires
    obtain ⟨fired, rfl⟩ := traced_eq_some.mp fires
    refine ⟨inv.sized.step fired, inv.headed.step inv.sized fired, ?_⟩
    intro entry member other
    rcases List.mem_append.mp member with old | new
    · exact inv.single entry old other
    · obtain ⟨source, b⟩ := entry
      have offers := Option.mem_toList.mp new
      exact ⟨offered_whole offers other, offered_isCompletion offers other⟩

/-- A TLP that ends with its first beat is that beat. -/
theorem WholeTLP.single {header : SendTLP} {rest : List SendTLP}
    (whole : WholeTLP (header :: rest)) (last : header.last = 1#1)
    : rest = [] := by
  obtain ⟨front, final, split, _, unfinished⟩ := whole.closed
  cases front with
  | nil =>
      rw [List.nil_append, List.cons.injEq] at split
      exact split.2
  | cons first front =>
      rw [List.cons_append, List.cons.injEq] at split
      have goesOn := (unfinished first (by simp)).1
      rw [← split.1, last] at goesOn
      exact absurd goesOn (by decide)

/-- The beats of sources that answer requests, out of labelled TLPs. -/
def answeredTLPs (order : List (TlpSource × List SendTLP)) : List (TlpSource × SendTLP) :=
  order.filterMap (fun entry =>
    if entry.1.answers then entry.2.head?.map (entry.1, ·) else none)

/-- When TLPs of answering sources are single beats and completions, and no others are, the
completions among the TLPs are the beats of these sources; induction on the TLPs.
-/
theorem completions_order {order : List (TlpSource × List SendTLP)}
    (single : ∀ entry ∈ order, entry.1.answers = true →
      ∃ b, entry.2 = [b] ∧ completionOf entry.2 = some b)
    (none : ∀ entry ∈ order, entry.1.answers = false → completionOf entry.2 = none)
    : completions (order.map Prod.snd) = (answeredTLPs order).map Prod.snd
      ∧ ∀ source, source.answers = true →
          ofSource source (answeredTLPs order) = (ofSource source order).flatten := by
  induction order with
  | nil => exact ⟨rfl, fun _ _ => rfl⟩
  | cons entry order ih =>
      obtain ⟨later, others⟩ := ih (fun other member => single other (by simp [member]))
        (fun other member => none other (by simp [member]))
      obtain ⟨source, tlp⟩ := entry
      cases answers : source.answers with
      | true =>
          obtain ⟨b, alone, completion⟩ := single (source, tlp) (by simp) answers
          have alone : tlp = [b] := alone
          subst alone
          have head : answeredTLPs ((source, [b]) :: order)
              = (source, b) :: answeredTLPs order := by
            simp [answeredTLPs, answers]
          rw [head]
          constructor
          · rw [completions, List.map_cons, List.filterMap_cons, completion]
            exact congrArg (b :: ·) later
          · intro other answering
            by_cases same : source = other
            · subst same
              have here := others source answering
              simp only [ofSource, List.filter_cons_of_pos, decide_true, List.map_cons,
                List.flatten_cons, List.singleton_append] at here ⊢
              rw [here]
            · have here := others other answering
              simpa [ofSource, same] using here
      | false =>
          have skipped := none (source, tlp) (by simp) answers
          have head : answeredTLPs ((source, tlp) :: order) = answeredTLPs order := by
            simp [answeredTLPs, answers]
          rw [head]
          constructor
          · rw [completions, List.map_cons, List.filterMap_cons, skipped]
            exact later
          · intro other answering
            have different : source ≠ other := by
              rintro rfl
              rw [answers] at answering
              cases answering
            have here := others other answering
            simpa [ofSource, different] using here

/-- Nothing is on its way to the core. -/
def PcieCtrl.TransmitDrained (s : PcieCtrl) : Prop :=
  s.tx.userSendTLPQ.items = [] ∧ s.tx.sendTLPm.items = [] ∧ s.tx.sendTLPQ.items = []

instance (s : PcieCtrl) : Decidable s.TransmitDrained :=
  inferInstanceAs (Decidable (_ ∧ _ ∧ _))

/-- A TLP in one beat ends with it. -/
theorem WholeTLP.last {b : SendTLP} (whole : WholeTLP [b])
    : b.last = 1#1 := by
  obtain ⟨front, final, split, last, _⟩ := whole.closed
  cases front with
  | nil =>
      rw [List.nil_append, List.cons.injEq] at split
      rw [split.1]
      exact last
  | cons first front => simp at split

section Order

variable {s : PcieCtrl} {log : TransmitLog} {order : List (TlpSource × List SendTLP)}
  {burst : List SendTLP} {waiting : TlpSource → List SendTLP}
  {entry : TlpSource × List SendTLP}

/-- A TLP through the send queue that is no write was handed over in one beat. -/
theorem single_order (inv : Multiplexed s log order burst waiting) (handed : HandedOver s log)
    (member : entry ∈ order) (other : entry.1 ≠ .write)
    : ∃ b, entry.2 = [b] ∧ isCompletion (tlpType b.tlp) = entry.1.answers := by
  obtain ⟨source, tlp⟩ := entry
  have whole : WholeTLP tlp := inv.whole _ member
  obtain ⟨header, rest, rfl, _⟩ := whole.dws
  have through : header ∈ ofSource source log.offered := by
    rw [inv.sources source]
    refine List.mem_append_left _ (List.mem_append_left _ (List.mem_flatten.mpr ?_))
    refine ⟨header :: rest, List.mem_map.mpr ⟨_, List.mem_filter.mpr ⟨member, ?_⟩, rfl⟩, by simp⟩
    exact decide_eq_true rfl
  obtain ⟨offer, offered, rfl⟩ := List.mem_map.mp through
  obtain ⟨found, labelled⟩ := List.mem_filter.mp offered
  obtain ⟨alone, completion⟩ := handed.single offer found
    (by rw [of_decide_eq_true labelled]; exact other)
  obtain rfl := whole.single alone.last
  refine ⟨offer.2, rfl, ?_⟩
  rw [completion, of_decide_eq_true labelled]

/-- A TLP of a source that answers is a completion in one beat. -/
theorem single_completion (inv : Multiplexed s log order burst waiting)
    (handed : HandedOver s log) (member : entry ∈ order) (answers : entry.1.answers = true)
    : ∃ b, entry.2 = [b] ∧ completionOf entry.2 = some b := by
  have other : entry.1 ≠ .write := by
    intro write
    rw [write] at answers
    cases answers
  obtain ⟨b, alone, completion⟩ := single_order inv handed member other
  refine ⟨b, alone, ?_⟩
  rw [alone, completionOf, completion, answers, if_pos rfl]

/-- A TLP of another source is no completion. -/
theorem no_completion (inv : Multiplexed s log order burst waiting) (handed : HandedOver s log)
    (member : entry ∈ order) (noAnswer : entry.1.answers = false)
    : completionOf entry.2 = none := by
  by_cases write : entry.1 = .write
  · have whole : ∀ t ∈ ofSource .write order, WholeTLP t := by
      intro t inOrder
      obtain ⟨other, found, rfl⟩ := List.mem_map.mp inOrder
      exact inv.whole other (List.mem_filter.mp found).1
    have cut : cutTLPs [] (ofSource .write log.offered) = ofSource .write order := by
      rw [inv.sources .write, inv.noWrites, List.append_nil]
      exact cutTLPs_flatten whole inv.underWay.unfinished
    refine handed.headed.cut entry.2 ?_
    rw [cut]
    exact List.mem_map.mpr ⟨entry, List.mem_filter.mpr ⟨member, decide_eq_true write⟩, rfl⟩
  · obtain ⟨b, alone, completion⟩ := single_order inv handed member write
    rw [alone, completionOf, completion, noAnswer]
    rfl

end Order

/-- Entries counted per source. -/
theorem count_ofSource (source : TlpSource) (b : SendTLP)
    (entries : List (TlpSource × SendTLP))
    : (ofSource source entries).count b = entries.count (source, b) := by
  induction entries with
  | nil => rfl
  | cons entry entries ih =>
      obtain ⟨other, c⟩ := entry
      by_cases same : other = source
      · subst same
        simp only [ofSource, List.filter_cons_of_pos, decide_true, List.map_cons,
          List.count_cons] at ih ⊢
        simp [ih]
      · have skipped : ofSource source ((other, c) :: entries) = ofSource source entries := by
          simp [ofSource, same]
        rw [skipped, ih, List.count_cons]
        simp [same]

/-- The same entries of every source are the same entries, up to order. -/
theorem perm_of_sources {xs ys : List (TlpSource × SendTLP)}
    (same : ∀ source, ofSource source xs = ofSource source ys)
    : xs.Perm ys := by
  rw [List.perm_iff_count]
  rintro ⟨source, b⟩
  rw [← count_ofSource, ← count_ofSource, same]

/-- The completions sent are the beats `answered` of the answering sources, in the order of
each source; what was handed over beyond them is `unsent`, nothing once the transmit side is
drained.
-/
structure CompletionsSent (s : PcieCtrl) (log : TransmitLog)
    (answered unsent : List (TlpSource × SendTLP)) : Prop where
  sent : answered.map Prod.snd = completions (cutTLPs [] log.sent)
  ordered : ∀ source, source.answers = true →
    ofSource source log.offered = ofSource source answered ++ ofSource source unsent
  handedOver : (answersIn log.offered).Perm (answered ++ unsent)
  drained : s.TransmitDrained → unsent = []

/-- Entries of answering sources that agree source by source are those handed over. -/
theorem answersIn_perm {offered answered unsent : List (TlpSource × SendTLP)}
    (answers : ∀ entry ∈ answered ++ unsent, entry.1.answers = true)
    (ordered : ∀ source, source.answers = true →
      ofSource source offered = ofSource source answered ++ ofSource source unsent)
    : (answersIn offered).Perm (answered ++ unsent) := by
  refine perm_of_sources fun source => ?_
  cases answering : source.answers with
  | true =>
      rw [ofSource_append, ← ordered source answering, answersIn, ofSource, ofSource,
        List.filter_filter]
      refine congrArg (List.map Prod.snd) (List.filter_congr ?_)
      intro entry _
      by_cases same : entry.1 = source
      · simp [same, answering]
      · simp [same]
  | false =>
      have none {entries : List (TlpSource × SendTLP)}
          (answers : ∀ entry ∈ entries, entry.1.answers = true)
          : ofSource source entries = [] := by
        rw [ofSource, List.map_eq_nil_iff, List.filter_eq_nil_iff]
        intro entry member same
        have mine := answers entry member
        rw [of_decide_eq_true same, answering] at mine
        cases mine
      rw [none answers]
      exact none fun entry member => (List.mem_filter.mp member).2

/-- The answers that are not sent yet: behind `order`, in the tree, and before it. -/
def waitingAnswers (order : List (TlpSource × List SendTLP))
    (waiting unmerged : TlpSource → List SendTLP) : List (TlpSource × SendTLP) :=
  [TlpSource.status, .ioWrite, .config, .user].flatMap (fun source =>
    ((ofSource source order).flatten ++ waiting source ++ unmerged source).map (source, ·))

/-- They are of answering sources. -/
theorem waitingAnswers_answers {order : List (TlpSource × List SendTLP)}
    {waiting unmerged : TlpSource → List SendTLP}
    : ∀ entry ∈ waitingAnswers order waiting unmerged, entry.1.answers = true := by
  intro entry member
  obtain ⟨source, listed, inSource⟩ := List.mem_flatMap.mp member
  obtain ⟨b, _, rfl⟩ := List.mem_map.mp inSource
  simp only [List.mem_cons, List.not_mem_nil, or_false] at listed
  rcases listed with rfl | rfl | rfl | rfl <;> rfl

/-- After every run from reset, the completions sent are those handed over, but the last
ones of each source.
-/
theorem completions_sent {p : PowerUp} {state : PcieCtrl × TransmitLog}
    (run : Reach (traced PcieCtrl.step TransmitLog.record) anyEvent
      (mkPcieCtrl p, TransmitLog.start) state)
    : ∃ answered unsent, CompletionsSent state.1 state.2 answered unsent := by
  obtain ⟨order, burst, waiting, inv⟩ := multiplexed run
  have handed := handedOver run
  have whole : ∀ t ∈ order.map Prod.snd, WholeTLP t := by
    intro t member
    obtain ⟨entry, inOrder, rfl⟩ := List.mem_map.mp member
    exact inv.whole entry inOrder
  have sent := cutTLPs_append [] state.2.sent state.1.tx.sendTLPQ.items
  rw [inv.beats, List.flatMap_def, cutTLPs_flatten whole inv.underWay.unfinished] at sent
  obtain ⟨n, cut⟩ : ∃ n, cutTLPs [] state.2.sent = (order.take n).map Prod.snd := by
    refine ⟨(cutTLPs [] state.2.sent).length, ?_⟩
    rw [List.map_take]
    exact List.prefix_iff_eq_take.mp sent
  obtain ⟨same, sources⟩ := @completions_order (order.take n)
    (fun entry member answers =>
      single_completion inv handed (List.mem_of_mem_take member) answers)
    (fun entry member noAnswer =>
      no_completion inv handed (List.mem_of_mem_take member) noAnswer)
  have left (source : TlpSource) (answers : source.answers = true)
      : ofSource source (waitingAnswers (order.drop n) waiting (state.1.notMerged burst))
        = (ofSource source (order.drop n)).flatten ++ waiting source
          ++ state.1.notMerged burst source := by
    cases source
    case readRequest => cases answers
    case write => cases answers
    all_goals simp [waitingAnswers, ofSource, List.filter_map, Function.comp_def]
  have answered (entry : TlpSource × SendTLP)
      (member : entry ∈ answeredTLPs (order.take n)) : entry.1.answers = true := by
    obtain ⟨labelled, _, some⟩ := List.mem_filterMap.mp member
    split at some
    next answers =>
      obtain ⟨b, _, rfl⟩ := Option.map_eq_some_iff.mp some
      exact answers
    next => cases some
  have ordered (source : TlpSource) (answers : source.answers = true)
      : ofSource source state.2.offered
        = ofSource source (answeredTLPs (order.take n))
          ++ ofSource source
            (waitingAnswers (order.drop n) waiting (state.1.notMerged burst)) := by
    have split : ofSource source order
        = ofSource source (order.take n) ++ ofSource source (order.drop n) := by
      rw [← ofSource_append, List.take_append_drop]
    rw [left source answers, inv.sources source, sources source answers, split]
    simp
  refine ⟨answeredTLPs (order.take n),
    waitingAnswers (order.drop n) waiting (state.1.notMerged burst), ?_, ordered, ?_, ?_⟩
  · rw [cut, same]
  · refine answersIn_perm ?_ ordered
    intro entry member
    rcases List.mem_append.mp member with sent | waits
    · exact answered entry sent
    · exact waitingAnswers_answers entry waits
  · rintro ⟨noUser, noTree, noQueue⟩
    have beats := inv.beats
    rw [noQueue, List.append_nil, List.flatMap_def] at beats
    rw [beats, cutTLPs_flatten whole inv.underWay.unfinished] at cut
    have all : order.drop n = [] := by
      have lengths := congrArg List.length cut
      rw [List.length_map, List.length_map, List.length_take] at lengths
      exact List.drop_eq_nil_of_le (by omega)
    have held (source : TlpSource) (answers : source.answers = true) : waiting source = [] := by
      have port := inv.tree.empty noTree
      cases source
      case status => exact port 0
      case ioWrite => exact port 1
      case config => exact port 2
      case user => exact port 5
      all_goals cases answers
    simp only [waitingAnswers, all, ofSource, PcieCtrl.notMerged, noUser, List.filter_nil,
      List.map_nil, List.flatten_nil, List.nil_append, List.append_nil, List.flatMap_cons,
      List.flatMap_nil, List.append_eq_nil_iff, List.map_eq_nil_iff]
    exact ⟨held .status rfl, held .ioWrite rfl, held .config rfl, held .user rfl⟩

end BluespecPcie

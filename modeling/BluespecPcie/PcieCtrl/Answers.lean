import BluespecPcie.PcieCtrl.Completions

/-! Every non-posted request is answered exactly once, with its own identity. -/

namespace BluespecPcie

open Bluespec

-----------------------------------------------------------------------------------------
-- Answers due and answers given
-----------------------------------------------------------------------------------------

/-- The answer a request calls for: who gives it and the identity it carries; a posted write
calls for none.
-/
def answerDue (tlp : BitVec 128) : List (TlpSource × BitVec 32) :=
  (answerSource tlp).toList.map (·, requestId tlp)

/-- The answer a read calls for that the user took. -/
def userAnswerDue (r : IOReadReq) : TlpSource × BitVec 32 := (.user, userReadId r)

/-- The answer a completion gives. -/
def answerGiven (entry : TlpSource × SendTLP) : TlpSource × BitVec 32 :=
  (entry.1, completionId entry.2)

/-- The answers that the requests in the device call for. -/
def RequestView.due (v : RequestView) : List (TlpSource × BitVec 32) :=
  (v.tlpQ ++ v.tlp2Q ++ v.tlp3Q).flatMap answerDue
    ++ v.ioReadQ.map (fun r => (.config, configReadId r))
    ++ v.userReads.map userAnswerDue

/-- The request a call brings in. -/
def RequestCall.accepts : RequestCall → List (BitVec 128)
  | .received tlp => [tlp]
  | _ => []

/-- The read a call looks up in the configuration buffer, with the word found. -/
def RequestCall.lookups : RequestCall → List (BitVec 128 × BitVec 32)
  | .lookedUp tlp x => [(tlp, x)]
  | _ => []

/-- The read a call hands to the user. -/
def RequestCall.takes : RequestCall → List IOReadReq
  | .took r => [r]
  | _ => []

/-- The read a call answers. -/
def RequestCall.answers : RequestCall → List IOReadReq
  | .answered r => [r]
  | _ => []

/-- The effect of a write calls for no answer. -/
theorem RequestView.due_write (v : RequestView) (tlp : BitVec 128)
    : (v.write tlp).due = v.due := by
  unfold RequestView.write
  split_ifs <;> rfl

/-- A request whose answer has a source calls for that one answer. -/
theorem answerDue_some {tlp : BitVec 128} {source : TlpSource}
    (some : answerSource tlp = some source)
    : answerDue tlp = [(source, requestId tlp)] := by
  rw [answerDue, some]
  rfl

/-- No step loses an answer or gives one twice: what is received or due before it, and what
the user answers, is given, due behind it, or taken by the user.
-/
theorem RequestStep.due {v v' : RequestView} {offer : Option (TlpSource × SendTLP)}
    {call : RequestCall} (moves : RequestStep v v' offer call)
    : (call.accepts.flatMap answerDue ++ v.due ++ call.answers.map userAnswerDue).Perm
        ((answersIn offer.toList).map answerGiven ++ v'.due
          ++ call.takes.map userAnswerDue) := by
  have given {source : TlpSource} {b : SendTLP} (answers : source.answers = true)
      : (answersIn (some (source, b)).toList).map answerGiven = [(source, completionId b)] := by
    simp [answersIn, answers, answerGiven]
  have quiet : (answersIn (none : Option (TlpSource × SendTLP)).toList).map answerGiven = [] :=
    rfl
  rw [List.perm_iff_count]
  intro token
  cases moves with
  | @idle offer dma =>
      have none : answersIn offer.toList = [] := by
        cases offer with
        | none => rfl
        | some entry => simp [answersIn, dma entry.1 entry.2 rfl]
      simp [none, RequestCall.accepts, RequestCall.answers, RequestCall.takes]
  | receive _ =>
      rw [quiet]
      simp only [RequestCall.accepts, RequestCall.answers, RequestCall.takes, RequestView.due,
        List.flatMap_append, List.flatMap_cons, List.flatMap_nil, List.count_append,
        List.map_nil, List.count_nil]
      omega
  | status head source id _ _ =>
      rw [given rfl, id]
      simp only [RequestCall.accepts, RequestCall.answers, RequestCall.takes, RequestView.due,
        head, List.flatMap_append, List.flatMap_cons, List.flatMap_nil, List.count_append,
        List.map_nil, List.count_nil, answerDue_some source]
      omega
  | pass head _ =>
      rw [quiet]
      simp only [RequestCall.accepts, RequestCall.answers, RequestCall.takes, RequestView.due,
        head, List.flatMap_append, List.flatMap_cons, List.flatMap_nil, List.count_append,
        List.map_nil, List.count_nil]
      omega
  | @configRead tlp rest head source =>
      rw [quiet]
      simp only [RequestCall.accepts, RequestCall.answers, RequestCall.takes, RequestView.due,
        head, List.flatMap_append, List.flatMap_cons, List.flatMap_nil, List.count_append,
        List.map_nil, List.count_nil, answerDue_some source, List.map_append, List.map_cons,
        (readRequest_id tlp).1]
      omega
  | @userRead tlp rest head source =>
      rw [quiet]
      simp only [RequestCall.accepts, RequestCall.answers, RequestCall.takes, RequestView.due,
        head, List.flatMap_append, List.flatMap_cons, List.flatMap_nil, List.count_append,
        List.map_nil, List.count_nil, answerDue_some source, List.map_append, List.map_cons,
        userAnswerDue, (readRequest_id tlp).2]
      omega
  | write head _ =>
      rw [quiet]
      simp only [RequestCall.accepts, RequestCall.answers, RequestCall.takes, RequestView.due,
        head, List.flatMap_append, List.flatMap_cons, List.flatMap_nil, List.count_append,
        List.map_nil, List.count_nil]
      omega
  | config head _ id _ =>
      rw [given rfl, id]
      simp only [RequestCall.accepts, RequestCall.answers, RequestCall.takes, RequestView.due,
        head, List.flatMap_nil, List.count_append, List.map_nil, List.count_nil, List.map_cons,
        List.count_cons]
      omega
  | ioWrite head source id =>
      rw [given rfl, id, RequestView.due_write]
      simp only [RequestCall.accepts, RequestCall.answers, RequestCall.takes, RequestView.due,
        head, List.flatMap_append, List.flatMap_cons, List.flatMap_nil, List.count_append,
        List.map_nil, List.count_nil, answerDue_some source]
      omega
  | @posted tlp rest head source =>
      have none : answerDue tlp = [] := by
        rw [answerDue, source]
        rfl
      rw [quiet, RequestView.due_write]
      simp only [RequestCall.accepts, RequestCall.answers, RequestCall.takes, RequestView.due,
        head, List.flatMap_append, List.flatMap_cons, List.flatMap_nil, List.count_append,
        List.map_nil, List.count_nil, none]
      omega
  | dataReq head =>
      rw [quiet]
      simp only [RequestCall.accepts, RequestCall.answers, RequestCall.takes, RequestView.due,
        head, List.flatMap_nil, List.count_append, List.map_nil, List.count_nil, List.map_cons,
        List.count_cons]
      omega
  | @dataSend ioreq b id =>
      rw [given rfl, id]
      simp only [RequestCall.accepts, RequestCall.answers, RequestCall.takes,
        List.flatMap_nil, List.count_append, List.map_nil, List.count_nil, List.map_cons,
        userAnswerDue]
      omega
  | dataReceive _ =>
      rw [quiet]
      simp only [RequestCall.accepts, RequestCall.answers, RequestCall.takes, RequestView.due,
        List.flatMap_nil, List.count_append, List.map_nil, List.count_nil]

-----------------------------------------------------------------------------------------
-- History
-----------------------------------------------------------------------------------------

/-- The TLPs handed over and sent, the requests accepted, the reads in the user's hands, and
each read of the configuration buffer with what its own word held when it was looked up.
-/
structure AnswerLog where
  transmit : TransmitLog
  accepted : List (BitVec 128)
  hand : List IOReadReq
  configReads : List (BitVec 128 × BitVec 32)

/-- Nothing has happened. -/
def AnswerLog.start : AnswerLog := ⟨.start, [], [], []⟩

/-- The user's hands after a call. -/
def RequestCall.hand (call : RequestCall) (hand : List IOReadReq) : List IOReadReq :=
  call.answers.foldl List.erase hand ++ call.takes

def AnswerLog.record (s : PcieCtrl) (e : Event) (log : AnswerLog) : AnswerLog where
  transmit := log.transmit.record s e
  accepted := log.accepted ++ (s.requestCall e).accepts
  hand := (s.requestCall e).hand log.hand
  configReads := log.configReads ++ (s.requestCall e).lookups

/-- The user answers only reads it took and has not answered yet. -/
def AnswersHand (hand : List IOReadReq) : Event → Prop
  | .dataSend ioreq _ => ioreq ∈ hand
  | _ => True

instance (hand : List IOReadReq) (e : Event) : Decidable (AnswersHand hand e) := by
  apply Event.casesOn (motive := fun e => Decidable (AnswersHand hand e)) e <;> intros <;>
    unfold AnswersHand <;> infer_instance

/-- A call of such a user answers a read out of its hands and keeps the others. -/
theorem AnswersHand.perm {s : PcieCtrl} {e : Event} {hand : List IOReadReq}
    (answers : AnswersHand hand e)
    : (hand ++ (s.requestCall e).takes).Perm
        ((s.requestCall e).answers ++ (s.requestCall e).hand hand) := by
  cases call : s.requestCall e with
  | answered r =>
      have took : r ∈ hand := by
        cases e
        case dataSend ioreq data =>
          cases call
          exact answers
        all_goals
          simp only [PcieCtrl.requestCall] at call
          repeat' split at call
          all_goals cases call
      simpa [RequestCall.takes, RequestCall.answers, RequestCall.hand]
        using List.perm_cons_erase took
  | _ => simp [RequestCall.takes, RequestCall.answers, RequestCall.hand]

-----------------------------------------------------------------------------------------
-- The ledger
-----------------------------------------------------------------------------------------

/-- Every answer due was given, is still due in the device, or is in the user's hands. -/
structure AnswerLedger (s : PcieCtrl) (log : AnswerLog) : Prop where
  only : RequestsOnly s
  balance : (log.accepted.flatMap answerDue).Perm
    ((answersIn log.transmit.offered).map answerGiven ++ s.requests.due
      ++ log.hand.map userAnswerDue)

/-- The events a device sees whose host only sends requests and whose user answers only what
it took.
-/
def AnswersRequests (state : PcieCtrl × AnswerLog) (e : Event) : Prop :=
  ReceivesRequests e ∧ AnswersHand state.2.hand e

instance (state : PcieCtrl × AnswerLog) (e : Event) : Decidable (AnswersRequests state e) :=
  inferInstanceAs (Decidable (_ ∧ _))

/-- Every such event keeps the ledger. -/
theorem AnswerLedger.step {s s' : PcieCtrl} {log : AnswerLog} {e : Event}
    (ledger : AnswerLedger s log) (allowed : AnswersRequests (s, log) e)
    (fires : s.step e = some s')
    : AnswerLedger s' (log.record s e) := by
  obtain ⟨receives, answers⟩ := allowed
  refine ⟨ledger.only.step receives fires, ?_⟩
  have balance := List.perm_iff_count.mp ledger.balance
  have moved := List.perm_iff_count.mp (request_step ledger.only receives fires).due
  have hand := List.perm_iff_count.mp
    ((answers.perm (s := s)).map userAnswerDue)
  rw [List.perm_iff_count]
  intro token
  have balance := balance token
  have moved := moved token
  have hand := hand token
  simp only [AnswerLog.record, TransmitLog.record, answersIn_append, List.flatMap_append,
    List.map_append, List.count_append] at balance moved hand ⊢
  omega

/-- At reset nothing is due. -/
theorem AnswerLedger.init (p : PowerUp)
    : AnswerLedger (mkPcieCtrl p) .start :=
  ⟨RequestsOnly.init p, .refl _⟩

-----------------------------------------------------------------------------------------
-- Reads of the configuration buffer
-----------------------------------------------------------------------------------------

/-- The requests that read the configuration buffer. -/
def configRequests (tlps : List (BitVec 128)) : List (BitVec 128) :=
  tlps.filter (fun tlp => answerSource tlp = some .config)

/-- The identity and data of the completion that answers a looked-up read. -/
def lookupAnswer (read : BitVec 128 × BitVec 32) : BitVec 32 × BitVec 32 :=
  (requestId read.1, read.2)

/-- The identity and data of a completion. -/
def completionFields (b : SendTLP) : BitVec 32 × BitVec 32 := (completionId b, completionData b)

/-- Reads of the configuration buffer are looked up in the order they were accepted, and
answered in that order with what was looked up for them.
-/
structure ConfigPaired (v : RequestView) (accepted : List (BitVec 128))
    (configReads : List (BitVec 128 × BitVec 32)) (offered : List (TlpSource × SendTLP))
    : Prop where
  requested : configRequests accepted
    = configReads.map Prod.fst ++ configRequests (v.tlp2Q ++ v.tlpQ)
  answered : configReads.map lookupAnswer
    = (ofSource .config offered).map completionFields
      ++ (v.ioReadQ.map configReadId).zip v.respA

/-- A request answered by another source does not read the configuration buffer. -/
theorem configRequests_cons {tlp : BitVec 128} (rest : List (BitVec 128))
    : configRequests (tlp :: rest)
      = (if answerSource tlp = some .config then [tlp] else []) ++ configRequests rest := by
  by_cases config : answerSource tlp = some .config
  · simp [configRequests, config]
  · simp [configRequests, config]

theorem configRequests_append (xs ys : List (BitVec 128))
    : configRequests (xs ++ ys) = configRequests xs ++ configRequests ys :=
  List.filter_append ..

/-- Every step keeps reads of the configuration buffer in order and with their words. -/
theorem ConfigPaired.step {v v' : RequestView} {offer : Option (TlpSource × SendTLP)}
    {call : RequestCall} {accepted : List (BitVec 128)}
    {configReads : List (BitVec 128 × BitVec 32)} {offered : List (TlpSource × SendTLP)}
    (placed : v.Placed) (paired : ConfigPaired v accepted configReads offered)
    (moves : RequestStep v v' offer call)
    : ConfigPaired v' (accepted ++ call.accepts) (configReads ++ call.lookups)
        (offered ++ offer.toList) := by
  obtain ⟨requested, answered⟩ := paired
  have written (w : RequestView) (tlp : BitVec 128)
      : (w.write tlp).tlp2Q = w.tlp2Q ∧ (w.write tlp).tlpQ = w.tlpQ
        ∧ (w.write tlp).ioReadQ = w.ioReadQ ∧ (w.write tlp).respA = w.respA := by
    unfold RequestView.write
    split_ifs <;> exact ⟨rfl, rfl, rfl, rfl⟩
  have other {source : TlpSource} {b : SendTLP} (notConfig : source ≠ .config)
      : ofSource .config (offered ++ (some (source, b)).toList) = ofSource .config offered := by
    rw [ofSource_append, Option.toList_some, ofSource_singleton, if_neg notConfig,
      List.append_nil]
  cases moves with
  | @idle offer dma =>
      have none : ofSource .config (offered ++ offer.toList) = ofSource .config offered := by
        cases offer with
        | none => rw [Option.toList_none, List.append_nil]
        | some entry =>
            obtain ⟨source, b⟩ := entry
            refine other fun config => ?_
            subst config
            cases dma _ _ rfl
      refine ⟨?_, ?_⟩
      · simpa [RequestCall.accepts, RequestCall.lookups] using requested
      · rw [none]
        simpa [RequestCall.lookups] using answered
  | receive _ =>
      refine ⟨?_, by simpa [RequestCall.lookups] using answered⟩
      simp only [RequestCall.accepts, RequestCall.lookups, List.append_nil,
        ← List.append_assoc, configRequests_append _ [_], requested]
  | @status tlp rest b head source _ _ _ =>
      refine ⟨?_, ?_⟩
      · simp only [RequestCall.accepts, RequestCall.lookups, List.append_nil, requested, head,
          configRequests_append, configRequests_cons, source]
        rfl
      · rw [other (by decide)]
        simpa [RequestCall.lookups] using answered
  | pass head _ =>
      refine ⟨?_, by simpa [RequestCall.lookups] using answered⟩
      simp only [RequestCall.accepts, RequestCall.lookups, List.append_nil, requested, head,
        List.append_assoc, List.singleton_append]
  | @configRead tlp rest head source =>
      refine ⟨?_, ?_⟩
      · simp only [RequestCall.accepts, RequestCall.lookups, List.append_nil, requested, head,
          List.cons_append, configRequests_cons, source, if_true, List.map_append,
          List.map_cons, List.map_nil, List.append_assoc]
      · have lengths : (v.ioReadQ.map configReadId).length = v.respA.length := by
          rw [List.length_map, placed.paired]
        simp only [RequestCall.lookups, List.map_append, answered, Option.toList_none,
          List.append_nil, List.zip_append lengths, List.append_assoc, List.map_cons,
          List.map_nil, (readRequest_id tlp).1]
        rfl
  | @userRead tlp rest head source =>
      refine ⟨?_, by simpa [RequestCall.lookups] using answered⟩
      have notConfig : ¬answerSource tlp = some .config := by simp [source]
      simp only [RequestCall.accepts, RequestCall.lookups, List.append_nil, requested, head,
        List.cons_append, configRequests_cons, if_neg notConfig, List.nil_append]
  | @write tlp rest head write =>
      refine ⟨?_, by simpa [RequestCall.lookups] using answered⟩
      have notConfig : ¬answerSource tlp = some .config := by
        rw [answerSource_write write]
        split <;> decide
      simp only [RequestCall.accepts, RequestCall.lookups, List.append_nil, requested, head,
        List.cons_append, configRequests_cons, if_neg notConfig, List.nil_append]
  | @config r x rs xs b head response id data =>
      refine ⟨by simpa [RequestCall.accepts, RequestCall.lookups] using requested, ?_⟩
      have fields : completionFields b = (configReadId r, x) := by
        rw [completionFields, id, data]
      simp only [RequestCall.lookups, List.append_nil, answered, head, response, List.map_cons,
        List.zip_cons_cons, ofSource_append, Option.toList_some, ofSource_singleton, if_true,
        List.map_append, List.map_nil, fields, List.append_assoc, List.singleton_append]
  | @ioWrite tlp rest b _ _ _ =>
      obtain ⟨tlp2Q, tlpQ, ioReadQ, respA⟩ := written { v with tlp3Q := rest } tlp
      refine ⟨?_, ?_⟩
      · rw [tlp2Q, tlpQ]
        simpa [RequestCall.accepts, RequestCall.lookups] using requested
      · rw [other (by decide), ioReadQ, respA]
        simpa [RequestCall.lookups] using answered
  | @posted tlp rest _ _ =>
      obtain ⟨tlp2Q, tlpQ, ioReadQ, respA⟩ := written { v with tlp3Q := rest } tlp
      refine ⟨?_, ?_⟩
      · rw [tlp2Q, tlpQ]
        simpa [RequestCall.accepts, RequestCall.lookups] using requested
      · rw [ioReadQ, respA]
        simpa [RequestCall.lookups] using answered
  | dataReq _ =>
      exact ⟨by simpa [RequestCall.accepts, RequestCall.lookups] using requested,
        by simpa [RequestCall.lookups] using answered⟩
  | dataSend _ =>
      refine ⟨by simpa [RequestCall.accepts, RequestCall.lookups] using requested, ?_⟩
      rw [other (by decide)]
      simpa [RequestCall.lookups] using answered
  | dataReceive _ =>
      exact ⟨by simpa [RequestCall.accepts, RequestCall.lookups] using requested,
        by simpa [RequestCall.lookups] using answered⟩

-----------------------------------------------------------------------------------------
-- Whole runs
-----------------------------------------------------------------------------------------

/-- The completions sent are `answered`, and `unsent` wait to be sent. With the answers still
due in the device or from the user, they are one answer for each request accepted, from its own
source and with its own identity; and reads of the configuration buffer are answered in order
with what their own words held when they were looked up.
-/
structure AnsweredOnce (s : PcieCtrl) (log : AnswerLog)
    (answered unsent : List (TlpSource × SendTLP)) : Prop where
  sent : answered.map Prod.snd = completions (cutTLPs [] log.transmit.sent)
  matched : (log.accepted.flatMap answerDue).Perm
    ((answered ++ unsent).map answerGiven ++ s.requests.due ++ log.hand.map userAnswerDue)
  lookups : (log.configReads.map Prod.fst).IsPrefix (configRequests log.accepted)
  lookedUp : ((ofSource .config answered).map completionFields).IsPrefix
    (log.configReads.map lookupAnswer)
  drained : s.TransmitDrained → unsent = []
  complete : s.TransmitDrained → s.requests.due = [] → log.hand = [] →
    (log.accepted.flatMap answerDue).Perm (answered.map answerGiven)

section Runs

variable {p : PowerUp} {state : PcieCtrl × AnswerLog}

/-- Reads of the configuration buffer stay paired in every run that receives requests only;
induction on the run.
-/
theorem config_paired (run : Reach (traced PcieCtrl.step AnswerLog.record)
      (fun _ e => ReceivesRequests e) (mkPcieCtrl p, AnswerLog.start) state)
    : ConfigPaired state.1.requests state.2.accepted state.2.configReads
        state.2.transmit.offered := by
  have all : RequestsOnly state.1 ∧ ConfigPaired state.1.requests state.2.accepted
      state.2.configReads state.2.transmit.offered := by
    refine run.invariant (P := fun state => RequestsOnly state.1 ∧ ConfigPaired
      state.1.requests state.2.accepted state.2.configReads state.2.transmit.offered) ?_ ?_
    · exact ⟨RequestsOnly.init p, rfl, rfl⟩
    · rintro ⟨s, log⟩ e ⟨s', log'⟩ ⟨only, paired⟩ receives fires
      obtain ⟨fired, rfl⟩ := traced_eq_some.mp fires
      exact ⟨only.step receives fired,
        paired.step only.placed (request_step only receives fired)⟩
  exact all.2

end Runs

/-- A status read and a read of the configuration buffer, to the transmission of their
completions.
-/
def twoReadsRun : List Event :=
  [.recvTLP ⟨packDWs 0 0 0x0001000f 1, 0x0fff, 0x204000⟩,
    .recvTLP ⟨packDWs 0 64 0x0001010f 1, 0x0fff, 0x204000⟩,
    .filterStatReadTLP, .filterStatReadTLP, .procTLP, .completeIORead,
    .sendTLPmRule (.inside false (.inside false .merge)),
    .sendTLPmRule (.inside false (.inside true .merge)),
    .sendTLPmRule (.inside false (.ma1 false)), .sendTLPmRule (.inside false (.ma1 true)),
    .sendTLPmRule (.inside false .merge), .sendTLPmRule (.inside false .merge),
    .sendTLPmRule (.ma1 false), .sendTLPmRule (.ma1 false), .sendTLPmRule .merge,
    .sendTLPmRule .merge, .relayTLPm, .relayTLPm, .relayTLP, .relayTLP]

end BluespecPcie

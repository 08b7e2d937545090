import BluespecPcie.PcieCtrl.Answers

/-! The configuration buffer as a memory: when a read finds the last write before it. -/

namespace BluespecPcie

open Bluespec

-----------------------------------------------------------------------------------------
-- The memory the host means
-----------------------------------------------------------------------------------------

/-- The request stores a word of the configuration buffer; a write to offset 0 resets the emit
counters instead.
-/
def storesConfig (tlp : BitVec 128) : Bool :=
  isWrite (tlpType tlp) && internalAddr tlp != 0 && decide (internalAddr tlp < io_userspace_offset)

/-- The data of a write request. -/
def writeData (tlp : BitVec 128) : BitVec 32 := reverseEndian (dword tlp 3)

/-- The data of the last of these requests that stores `word`, or what it held before them. -/
def lastWritten (mem : BitVec 12 → BitVec 32) (before : List (BitVec 128)) (word : BitVec 12)
    : BitVec 32 :=
  match (before.filter (fun tlp => storesConfig tlp && configWord tlp == word)).getLast? with
  | some tlp => writeData tlp
  | none => mem word

/-- Each read of the configuration buffer among requests, in order of arrival behind `before`,
with the last write to its word before it.
-/
def expectedReads (mem : BitVec 12 → BitVec 32)
    : List (BitVec 128) → List (BitVec 128) → List (BitVec 128 × BitVec 32)
  | _, [] => []
  | before, tlp :: rest =>
      (if answerSource tlp = some .config then [(tlp, lastWritten mem before (configWord tlp))]
        else [])
        ++ expectedReads mem (before ++ [tlp]) rest

/-- The memory after one request. -/
def storeConfig (mem : BitVec 12 → BitVec 32) (tlp : BitVec 128) : BitVec 12 → BitVec 32 :=
  if storesConfig tlp then Function.update mem (configWord tlp) (writeData tlp) else mem

/-- Requests acting one after the other on a memory, with what each read finds. -/
def readsFrom (mem : BitVec 12 → BitVec 32) : List (BitVec 128) → List (BitVec 128 × BitVec 32)
  | [] => []
  | tlp :: rest =>
      (if answerSource tlp = some .config then [(tlp, mem (configWord tlp))] else [])
        ++ readsFrom (storeConfig mem tlp) rest

/-- A memory holds the last write to each word; induction on the requests from the last. -/
theorem foldl_storeConfig (mem : BitVec 12 → BitVec 32) (before : List (BitVec 128))
    (word : BitVec 12)
    : before.foldl storeConfig mem word = lastWritten mem before word := by
  induction before using List.reverseRecOn with
  | nil => rfl
  | append_singleton before tlp ih =>
      rw [List.foldl_concat, lastWritten, List.filter_append]
      by_cases stores : storesConfig tlp = true
      · by_cases here : configWord tlp = word
        · subst here
          simp [storeConfig, stores]
        · have other : word ≠ configWord tlp := fun same => here same.symm
          rw [storeConfig, if_pos stores, Function.update_of_ne other, ih, lastWritten]
          simp [stores, here]
      · rw [storeConfig, if_neg stores, ih, lastWritten]
        simp [stores]

/-- Acting in order finds the last writes. -/
theorem readsFrom_eq (mem : BitVec 12 → BitVec 32) (before tlps : List (BitVec 128))
    : readsFrom (before.foldl storeConfig mem) tlps = expectedReads mem before tlps := by
  induction tlps generalizing before with
  | nil => rfl
  | cons tlp rest ih =>
      rw [readsFrom, expectedReads, foldl_storeConfig, ← ih (before ++ [tlp]),
        List.foldl_concat]

/-- Requests act on the memory those before them leave. -/
theorem readsFrom_append (mem : BitVec 12 → BitVec 32) (xs ys : List (BitVec 128))
    : readsFrom mem (xs ++ ys) = readsFrom mem xs ++ readsFrom (xs.foldl storeConfig mem) ys := by
  induction xs generalizing mem with
  | nil => rfl
  | cons x xs ih =>
      rw [List.cons_append, readsFrom, readsFrom, ih, List.foldl_cons, List.append_assoc]

/-- A read stores nothing. -/
theorem storeConfig_read {tlp : BitVec 128} (read : isRead (tlpType tlp) = true)
    (mem : BitVec 12 → BitVec 32)
    : storeConfig mem tlp = mem := by
  rw [storeConfig, storesConfig, isRead_excludes read]
  rfl

-----------------------------------------------------------------------------------------
-- One step
-----------------------------------------------------------------------------------------

/-- The memory once the writes waiting in `tlp3Q` have taken effect. -/
def RequestView.settledMem (v : RequestView) : BitVec 12 → BitVec 32 :=
  v.tlp3Q.foldl storeConfig v.mem

/-- What was accepted acts on the memory as what is still to come acts on the settled one; the
reads looked up found what they find when all acts in order.
-/
structure ReadsInOrder (mem : BitVec 12 → BitVec 32) (v : RequestView)
    (accepted : List (BitVec 128)) (configReads : List (BitVec 128 × BitVec 32)) : Prop where
  stored : accepted.foldl storeConfig mem = (v.tlp2Q ++ v.tlpQ).foldl storeConfig v.settledMem
  found : readsFrom mem accepted = configReads ++ readsFrom v.settledMem (v.tlp2Q ++ v.tlpQ)

/-- A write to the word waits among these requests. -/
def writeWaits (tlps : List (BitVec 128)) (word : BitVec 12) : Bool :=
  tlps.any (fun tlp => storesConfig tlp && configWord tlp == word)

/-- When `procTLP` looks up a word, no write to it still waits in `tlp3Q`. -/
def ConfigSettled (s : PcieCtrl) : Event → Prop
  | .procTLP => match s.rx.tlp2Q.first with
      | some tlp =>
          answerSource tlp = some .config → writeWaits s.rx.tlp3Q.items (configWord tlp) = false
      | none => True
  | _ => True

instance (s : PcieCtrl) (e : Event) : Decidable (ConfigSettled s e) := by
  apply Event.casesOn (motive := fun e => Decidable (ConfigSettled s e)) e <;> intros
  case procTLP =>
    unfold ConfigSettled
    generalize s.rx.tlp2Q.first = first
    exact first.casesOn (isTrue trivial) (fun _ => inferInstanceAs (Decidable (_ → _)))
  all_goals exact isTrue trivial

/-- The call of `procTLP` that looks up a word finds it settled. -/
theorem ConfigSettled.lookup {s : PcieCtrl} {e : Event} {tlp : BitVec 128} {x : BitVec 32}
    (settled : ConfigSettled s e) (call : s.requestCall e = .lookedUp tlp x)
    : writeWaits s.requests.tlp3Q (configWord tlp) = false := by
  cases e
  case procTLP =>
    cases first : s.rx.tlp2Q.first with
    | none =>
        simp only [PcieCtrl.requestCall, first] at call
        cases call
    | some head =>
        simp only [PcieCtrl.requestCall, first] at call
        simp only [ConfigSettled, first] at settled
        split at call
        next source =>
          cases call
          exact settled source
        next => cases call
  all_goals
    simp only [PcieCtrl.requestCall] at call
    repeat' split at call
    all_goals cases call

/-- Requests among which no write to a word waits leave it. -/
theorem foldl_storeConfig_settled {mem : BitVec 12 → BitVec 32} {word : BitVec 12}
    {tlps : List (BitVec 128)} (settled : writeWaits tlps word = false)
    : tlps.foldl storeConfig mem word = mem word := by
  have none : tlps.filter (fun tlp => storesConfig tlp && configWord tlp == word) = [] :=
    List.filter_eq_nil_iff.mpr (by simpa [writeWaits] using settled)
  rw [foldl_storeConfig, lastWritten, none]
  rfl

/-- A write leaves the memory as its request says. -/
theorem RequestView.write_mem {v : RequestView} {tlp : BitVec 128}
    (write : isWrite (tlpType tlp) = true)
    : (v.write tlp).mem = storeConfig v.mem tlp := by
  rw [storeConfig, storesConfig, write, RequestView.write]
  by_cases reset : internalAddr tlp = 0
  · rw [if_pos reset, reset]
    rfl
  · have stores : (true && internalAddr tlp != 0
        && decide (internalAddr tlp < io_userspace_offset))
        = decide (internalAddr tlp < io_userspace_offset) := by
      simp only [Bool.true_and, bne_iff_ne.mpr reset]
    rw [if_neg reset, stores]
    by_cases config : internalAddr tlp < io_userspace_offset
    · rw [if_pos config, if_pos (decide_eq_true config)]
      rfl
    · rw [if_neg config, if_neg (by simpa using config)]

/-- A write that takes effect was settled before. -/
theorem RequestView.settledMem_write {v : RequestView} {tlp : BitVec 128}
    {rest : List (BitVec 128)} (head : v.tlp3Q = tlp :: rest)
    (write : isWrite (tlpType tlp) = true)
    : ({ v with tlp3Q := rest }.write tlp).settledMem = v.settledMem := by
  have queue : ({ v with tlp3Q := rest }.write tlp).tlp3Q = rest := by
    unfold RequestView.write
    split_ifs <;> rfl
  rw [RequestView.settledMem, queue, RequestView.write_mem write, RequestView.settledMem, head,
    List.foldl_cons]

/-- What takes effect leaves the requests behind it. -/
theorem RequestView.write_queues (v : RequestView) (tlp : BitVec 128)
    : (v.write tlp).tlp2Q = v.tlp2Q ∧ (v.write tlp).tlpQ = v.tlpQ := by
  unfold RequestView.write
  split_ifs <;> exact ⟨rfl, rfl⟩

/-- A request that does not read the configuration buffer finds nothing. -/
theorem readsFrom_skip {tlp : BitVec 128} (other : answerSource tlp ≠ some .config)
    (mem : BitVec 12 → BitVec 32) (rest : List (BitVec 128))
    : readsFrom mem (tlp :: rest) = readsFrom (storeConfig mem tlp) rest := by
  rw [readsFrom, if_neg other, List.nil_append]

/-- A step keeps reads in order, if a word it looks up is settled. -/
theorem ReadsInOrder.step {mem : BitVec 12 → BitVec 32} {v v' : RequestView}
    {offer : Option (TlpSource × SendTLP)} {call : RequestCall} {accepted : List (BitVec 128)}
    {configReads : List (BitVec 128 × BitVec 32)} (placed : v.Placed)
    (ordered : ReadsInOrder mem v accepted configReads)
    (settled : ∀ tlp x, call = .lookedUp tlp x →
      writeWaits v.tlp3Q (configWord tlp) = false)
    (moves : RequestStep v v' offer call)
    : ReadsInOrder mem v' (accepted ++ call.accepts) (configReads ++ call.lookups) := by
  obtain ⟨stored, found⟩ := ordered
  -- a step that brings in and looks up nothing keeps both sides if the rest acts as before
  have quiet {w : RequestView}
      (later : (w.tlp2Q ++ w.tlpQ).foldl storeConfig w.settledMem
        = (v.tlp2Q ++ v.tlpQ).foldl storeConfig v.settledMem)
      (reads : readsFrom w.settledMem (w.tlp2Q ++ w.tlpQ)
        = readsFrom v.settledMem (v.tlp2Q ++ v.tlpQ))
      : ReadsInOrder mem w (accepted ++ []) (configReads ++ []) := by
    rw [List.append_nil, List.append_nil]
    exact ⟨stored.trans later.symm, by rw [found, reads]⟩
  cases moves with
  | idle _ => exact quiet rfl rfl
  | @receive tlp _ =>
      refine ⟨?_, ?_⟩
      · change (accepted ++ [tlp]).foldl storeConfig mem
          = (v.tlp2Q ++ (v.tlpQ ++ [tlp])).foldl storeConfig v.settledMem
        rw [← List.append_assoc, List.foldl_concat, List.foldl_concat, stored]
      · change readsFrom mem (accepted ++ [tlp])
          = configReads ++ [] ++ readsFrom v.settledMem (v.tlp2Q ++ (v.tlpQ ++ [tlp]))
        rw [← List.append_assoc, readsFrom_append, readsFrom_append, stored, found,
          List.append_nil, List.append_assoc]
  | @status tlp rest b head source _ _ _ =>
      have kept := storeConfig_read (isRead_of_source source (by decide))
      refine quiet ?_ ?_
      · change (v.tlp2Q ++ rest).foldl storeConfig v.settledMem = _
        rw [head, List.foldl_append, List.foldl_append, List.foldl_cons, kept]
      · change readsFrom v.settledMem (v.tlp2Q ++ rest) = _
        rw [head, readsFrom_append, readsFrom_append, readsFrom_skip (by simp [source]), kept]
  | @pass tlp rest head _ =>
      have same : v.tlp2Q ++ [tlp] ++ rest = v.tlp2Q ++ v.tlpQ := by
        rw [head, List.append_assoc, List.singleton_append]
      refine quiet ?_ ?_
      · change (v.tlp2Q ++ [tlp] ++ rest).foldl storeConfig v.settledMem = _
        rw [same]
      · change readsFrom v.settledMem (v.tlp2Q ++ [tlp] ++ rest) = _
        rw [same]
  | @configRead tlp rest head source =>
      have kept := storeConfig_read (isRead_of_source source (by decide))
      have current : v.settledMem (configWord tlp) = v.mem (configWord tlp) :=
        foldl_storeConfig_settled (settled tlp _ rfl)
      refine ⟨?_, ?_⟩
      · change (accepted ++ []).foldl storeConfig mem
          = (rest ++ v.tlpQ).foldl storeConfig v.settledMem
        rw [List.append_nil, stored, head, List.cons_append, List.foldl_cons, kept]
      · change readsFrom mem (accepted ++ [])
          = configReads ++ [(tlp, v.mem (configWord tlp))]
            ++ readsFrom v.settledMem (rest ++ v.tlpQ)
        rw [List.append_nil, found, head, List.cons_append, readsFrom, if_pos source, kept,
          current, List.append_assoc]
  | @userRead tlp rest head source =>
      have kept := storeConfig_read (isRead_of_source source (by decide))
      refine quiet ?_ ?_
      · change (rest ++ v.tlpQ).foldl storeConfig v.settledMem = _
        rw [head, List.cons_append, List.foldl_cons, kept]
      · change readsFrom v.settledMem (rest ++ v.tlpQ) = _
        rw [head, List.cons_append, readsFrom_skip (by simp [source]), kept]
  | @write tlp rest head write =>
      have later : ({ v with tlp2Q := rest, tlp3Q := v.tlp3Q ++ [tlp] } : RequestView).settledMem
          = storeConfig v.settledMem tlp :=
        List.foldl_concat ..
      have other : answerSource tlp ≠ some .config := by
        rw [answerSource_write write]
        split <;> decide
      refine quiet ?_ ?_
      · rw [later, head]
        rfl
      · rw [later, head, List.cons_append, readsFrom_skip other]
  | config _ _ _ _ => exact quiet rfl rfl
  | @ioWrite tlp rest b head _ _ =>
      have write := placed.inTlp3Q tlp (by simp [head])
      obtain ⟨tlp2Q, tlpQ⟩ := RequestView.write_queues { v with tlp3Q := rest } tlp
      refine quiet ?_ ?_ <;> rw [tlp2Q, tlpQ, RequestView.settledMem_write head write]
  | @posted tlp rest head _ =>
      have write := placed.inTlp3Q tlp (by simp [head])
      obtain ⟨tlp2Q, tlpQ⟩ := RequestView.write_queues { v with tlp3Q := rest } tlp
      refine quiet ?_ ?_ <;> rw [tlp2Q, tlpQ, RequestView.settledMem_write head write]
  | dataReq _ => exact quiet rfl rfl
  | dataSend _ => exact quiet rfl rfl
  | dataReceive _ => exact quiet rfl rfl

-----------------------------------------------------------------------------------------
-- Whole runs
-----------------------------------------------------------------------------------------

/-- The completions of configuration reads, those handed over and among them those sent
(`answered`), carry in order of arrival the last write to their word before them.
-/
structure ReadsLastWrite (mem : BitVec 12 → BitVec 32) (s : PcieCtrl) (log : AnswerLog)
    (answered unsent : List (TlpSource × SendTLP)) : Prop where
  completions : CompletionsSent s log.transmit answered unsent
  handedOver : ((ofSource .config log.transmit.offered).map completionFields).IsPrefix
    ((expectedReads mem [] log.accepted).map lookupAnswer)
  sent : ((ofSource .config answered).map completionFields).IsPrefix
    ((expectedReads mem [] log.accepted).map lookupAnswer)

/-- The device receives requests only, and words are settled when they are looked up. -/
def ReadsSettled (state : PcieCtrl × AnswerLog) (e : Event) : Prop :=
  ReceivesRequests e ∧ ConfigSettled state.1 e

instance (state : PcieCtrl × AnswerLog) (e : Event) : Decidable (ReadsSettled state e) :=
  inferInstanceAs (Decidable (_ ∧ _))

/-- In every run in which no word is looked up while a write to it waits in `tlp3Q`, the
configuration buffer is read-after-write consistent; induction on the run.
-/
theorem reads_last_write {p : PowerUp} {state : PcieCtrl × AnswerLog}
    (run : Reach (traced PcieCtrl.step AnswerLog.record) ReadsSettled
      (mkPcieCtrl p, AnswerLog.start) state)
    : ∃ answered unsent,
        ReadsLastWrite (mkPcieCtrl p).pages.configBuffer.mem state.1 state.2 answered unsent := by
  have all : RequestsOnly state.1 ∧ ReadsInOrder (mkPcieCtrl p).pages.configBuffer.mem
      state.1.requests state.2.accepted state.2.configReads := by
    refine run.invariant (P := fun state => RequestsOnly state.1 ∧ ReadsInOrder
      (mkPcieCtrl p).pages.configBuffer.mem state.1.requests state.2.accepted
      state.2.configReads) ?_ ?_
    · exact ⟨RequestsOnly.init p, rfl, rfl⟩
    · rintro ⟨s, log⟩ e ⟨s', log'⟩ ⟨only, ordered⟩ ⟨receives, settled⟩ fires
      obtain ⟨fired, rfl⟩ := traced_eq_some.mp fires
      refine ⟨only.step receives fired, ?_⟩
      exact ordered.step only.placed (fun _ _ call => settled.lookup call)
        (request_step only receives fired)
  obtain ⟨_, ordered⟩ := all
  have paired := config_paired (run.weaken fun allowed => allowed.1)
  obtain ⟨answered, unsent, sent⟩ := completions_sent
    (run.forget (r := TransmitLog.record) (f := AnswerLog.transmit) fun _ _ _ => rfl)
  have found : expectedReads (mkPcieCtrl p).pages.configBuffer.mem [] state.2.accepted
      = state.2.configReads ++ readsFrom state.1.requests.settledMem
        (state.1.requests.tlp2Q ++ state.1.requests.tlpQ) :=
    (readsFrom_eq _ [] _).symm.trans ordered.found
  have handed : ((ofSource .config state.2.transmit.offered).map completionFields).IsPrefix
      ((expectedReads (mkPcieCtrl p).pages.configBuffer.mem [] state.2.accepted).map
        lookupAnswer) := by
    rw [found, List.map_append, paired.answered, List.append_assoc]
    exact List.prefix_append _ _
  refine ⟨answered, unsent, sent, handed, List.IsPrefix.trans ?_ handed⟩
  rw [sent.ordered .config rfl, List.map_append]
  exact List.prefix_append _ _

/-- A write of 7 to offset 64 and a read of it arrive and pass the filter. -/
def writeThenRead : List Event :=
  [.recvTLP ⟨packDWs (reverseEndian 7) 64 0x0000000f 0x40000001, 0xffff, 0x204000⟩,
    .recvTLP ⟨packDWs 0 64 0x0001000f 1, 0x0fff, 0x204000⟩, .filterStatReadTLP,
    .filterStatReadTLP, .procTLP]

/-- Not every run is read-after-write consistent: if the read is looked up while the write
waits in `tlp3Q`, its completion carries what the word held before.
-/
theorem read_overtakes_write
    : ¬∀ state : PcieCtrl × AnswerLog,
        Reach (traced PcieCtrl.step AnswerLog.record) (fun _ e => ReceivesRequests e)
          (mkPcieCtrl default, AnswerLog.start) state →
        ∃ answered unsent, ReadsLastWrite (mkPcieCtrl default).pages.configBuffer.mem
          state.1 state.2 answered unsent := by
  intro claim
  obtain ⟨state, run, seen⟩ := exec_reach_map (traced PcieCtrl.step AnswerLog.record)
    (fun _ e => ReceivesRequests e) (mkPcieCtrl default, AnswerLog.start)
    (writeThenRead ++ [.procTLP, .completeIORead])
    (fun state => ((ofSource .config state.2.transmit.offered).map completionFields,
      (expectedReads (mkPcieCtrl default).pages.configBuffer.mem [] state.2.accepted).map
        lookupAnswer))
    ([(0x00010040, 0)], [(0x00010040, 7)])
    (by
      simp only [mkPcieCtrl, mkMergeN_eight]
      decide +kernel)
  simp only [Prod.mk.injEq] at seen
  obtain ⟨answered, unsent, reads⟩ := claim state run
  have stale := reads.handedOver
  rw [seen.1, seen.2] at stale
  exact absurd stale (by decide)

/-- Once the write has left `tlp3Q`, the read finds it. -/
theorem reads_last_write_writeThenRead
    : ∃ state : PcieCtrl × AnswerLog,
        Reach (traced PcieCtrl.step AnswerLog.record) ReadsSettled
          (mkPcieCtrl default, AnswerLog.start) state
        ∧ (ofSource .config state.2.transmit.offered).map completionFields = [(0x00010040, 7)]
        ∧ ∃ answered unsent, ReadsLastWrite (mkPcieCtrl default).pages.configBuffer.mem
            state.1 state.2 answered unsent := by
  obtain ⟨state, run, seen⟩ := exec_reach_map (traced PcieCtrl.step AnswerLog.record)
    ReadsSettled (mkPcieCtrl default, AnswerLog.start)
    (writeThenRead ++ [.procIOWrite, .procTLP, .completeIORead])
    (fun state => (ofSource .config state.2.transmit.offered).map completionFields)
    [(0x00010040, 7)]
    (by
      simp only [mkPcieCtrl, mkMergeN_eight]
      decide +kernel)
  exact ⟨state, run, seen, reads_last_write run⟩

end BluespecPcie

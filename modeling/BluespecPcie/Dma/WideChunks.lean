import BluespecPcie.Dma.WideUser

/-! `mkDMAWideCtrl`: the chunks of the user's writes, and when they are released. -/

namespace BluespecPcie

open Bluespec

-----------------------------------------------------------------------------------------
-- The chunks of a request
-----------------------------------------------------------------------------------------

/-- Chunk `i` of a request for 128-bit words: 128 bytes, or the rest. -/
def chunkAt (addr : BitVec 32) (words : Nat) (tag : BitVec 8) (i : Nat) : DMAReq where
  addr := addr + BitVec.ofNat 32 (128 * i)
  words := BitVec.ofNat 10 (min 8 (words - 8 * i))
  tag := tag

/-- The consecutive chunks of a request; a request without words has one without words. -/
def wideChunks (addr : BitVec 32) (words : Nat) (tag : BitVec 8) : List DMAReq :=
  (List.range (max 1 ((words + 7) / 8))).map (chunkAt addr words tag)

/-- A request of at most 8 words is one chunk. -/
theorem wideChunks_last (addr : BitVec 32) {words : Nat} (tag : BitVec 8) (few : words ≤ 8)
    : wideChunks addr words tag = [⟨addr, BitVec.ofNat 10 words, tag⟩] := by
  have one : max 1 ((words + 7) / 8) = 1 := by omega
  have all : min 8 words = words := by omega
  simp [wideChunks, one, chunkAt, all]

/-- A larger request is a chunk of 8 words and the chunks of the rest. -/
theorem wideChunks_next (addr : BitVec 32) {words : Nat} (tag : BitVec 8) (many : 8 < words)
    : wideChunks addr words tag = ⟨addr, 8, tag⟩ :: wideChunks (addr + 128) (words - 8) tag := by
  have count : max 1 ((words + 7) / 8) = max 1 ((words - 8 + 7) / 8) + 1 := by omega
  have first : min 8 words = 8 := by omega
  rw [wideChunks, count, List.range_succ_eq_map, List.map_cons, List.map_map, wideChunks]
  congr 1
  · simp [chunkAt, first]
  · refine List.map_congr_left ?_
    intro i _
    have rest : words - 8 * (i + 1) = words - 8 - 8 * i := by omega
    have behind : addr + BitVec.ofNat 32 (128 * (i + 1))
        = addr + 128 + BitVec.ofNat 32 (128 * i) := by
      rw [Nat.mul_add, Nat.add_comm, BitVec.ofNat_add, BitVec.add_assoc]
      rfl
    simp only [Function.comp_apply, chunkAt, Nat.succ_eq_add_one, rest, behind]

/-- The words that chunks ask for. -/
def chunkWords (chunks : List DMAReq) : Nat := (chunks.map (fun c => c.words.toNat)).sum

@[simp] theorem chunkWords_nil : chunkWords [] = 0 := rfl

@[simp] theorem chunkWords_append (chunks more : List DMAReq)
    : chunkWords (chunks ++ more) = chunkWords chunks + chunkWords more := by
  simp [chunkWords]

@[simp] theorem chunkWords_cons (c : DMAReq) (chunks : List DMAReq)
    : chunkWords (c :: chunks) = c.words.toNat + chunkWords chunks := by
  simp [chunkWords]

/-- The addresses of the words of a chunk. -/
def chunkAddrs (c : DMAReq) : List (BitVec 32) :=
  (List.range c.words.toNat).map (TaggedDma.wordAddr c.addr)

/-- The chunks of a request cover its words from its address on; induction on the chunks. -/
theorem wideChunks_addrs (addr : BitVec 32) (words : Nat) (tag : BitVec 8)
    : (wideChunks addr words tag).flatMap chunkAddrs
      = (List.range words).map (TaggedDma.wordAddr addr) := by
  induction words using Nat.strong_induction_on generalizing addr with
  | h words ih =>
    by_cases few : words ≤ 8
    · have narrow : (BitVec.ofNat 10 words).toNat = words := by
        rw [BitVec.toNat_ofNat]
        omega
      rw [wideChunks_last addr tag few, List.flatMap_singleton, chunkAddrs, narrow]
    · have split : words = 8 + (words - 8) := by omega
      rw [wideChunks_next addr tag (by omega), List.flatMap_cons, ih _ (by omega)]
      rw [split, List.range_add, List.map_append, List.map_map]
      congr 1
      rw [Nat.add_sub_cancel_left]
      refine List.map_congr_left ?_
      intro i _
      rw [Function.comp_apply, Nat.add_comm 8 i, TaggedDma.wordAddr_add]
      rfl

-----------------------------------------------------------------------------------------
-- Runs over an interface
-----------------------------------------------------------------------------------------

/-- What can happen: a write of the host arrives, a rule, a step of the interface, or a call
of a method.
-/
inductive DMAWideCtrlEvent where
  | getWriteReq (d : IOWrite)
  | rule (rule : DMAWideCtrlRule)
  | pcie
  | dmaWriteReq (addr words : BitVec 32) (tag : BitVec 8)
  | dmaWriteData (data : BitVec 256) (tag : BitVec 8)
  | enq (head : BitVec 32) (word : BitVec 128)
  | deq

/-- One event of the module over the interface `P`. -/
def DMAWideCtrl.step (P : TaggedDma) (s : DMAWideCtrl × P.State)
    : DMAWideCtrlEvent → Option (DMAWideCtrl × P.State)
  | .getWriteReq d => (s.1.getWriteReq d).map (·, s.2)
  | .rule rule => do
      let (m, call) ← s.1.fire rule
      let p ← P.accept s.2 call
      return (m, p)
  | .pcie => (P.internal s.2).map (s.1, ·)
  | .dmaWriteReq addr words tag => (s.1.dmaWriteReq addr words tag).map (·, s.2)
  | .dmaWriteData data tag => (s.1.dmaWriteData data tag).map (·, s.2)
  | .enq head word => (s.1.enq head word).map (·, s.2)
  | .deq => s.1.deq.map (fun taken => (taken.2, s.2))

/-- The requests of the user, its calls of `dmaWriteData`, and the chunks that were released
and those that were passed to the PCIe side.
-/
structure WideLog where
  requests : List (BitVec 32 × BitVec 32 × BitVec 8) := []
  calls : Nat := 0
  released : List DMAReq := []
  issued : List DMAReq := []

namespace WideLog

/-- How an event extends the history; the user's requests have the label 0. -/
def record {σ : Type} (s : DMAWideCtrl × σ) (e : DMAWideCtrlEvent) (log : WideLog) : WideLog :=
  match e with
  | .dmaWriteReq addr words tag => { log with requests := log.requests ++ [(addr, words, tag)] }
  | .dmaWriteData _ _ => { log with calls := log.calls + 1 }
  | .rule .relaydmawrqsync =>
      { log with released := log.released ++ (s.1.reqQ.items.take 1).map Prod.snd }
  | .rule .issuedmaWrite =>
      { log with issued := log.issued ++ withLabel 0 (s.1.wm00.outQ.items.take 1) }
  | _ => log

/-- Twice the words of a request fit in 32 bits. -/
def Small {σ : Type} (_ : σ) : DMAWideCtrlEvent → Prop
  | .dmaWriteReq _ words _ => words.toNat < 2 ^ 31
  | _ => True

instance decidableSmall {σ : Type} (s : σ) (e : DMAWideCtrlEvent) : Decidable (Small s e) := by
  unfold Small
  split <;> infer_instance

/-- The chunks that the requests stand for, behind the first 4 KB. -/
def chunks (log : WideLog) : List DMAReq :=
  log.requests.flatMap (fun r => wideChunks (r.1 + 1024 * 4) (2 * r.2.1.toNat) r.2.2)

/-- The addresses of the words that the requests are for, two words for each wide one. -/
def addrs (log : WideLog) : List (BitVec 32) :=
  log.requests.flatMap (fun r =>
    (List.range (2 * r.2.1.toNat)).map (TaggedDma.wordAddr (r.1 + 1024 * 4)))

/-- The chunks cover the words of the requests. -/
theorem chunks_addrs (log : WideLog) : log.chunks.flatMap chunkAddrs = log.addrs := by
  rw [chunks, List.flatMap_assoc]
  exact List.flatMap_congr (fun r _ => wideChunks_addrs _ _ _)

/-- The words of all chunks up to `head`, which is the next to be released. -/
def upTo (log : WideLog) (head : DMAReq) : Nat := chunkWords log.released + head.words.toNat

end WideLog

namespace DMAWideCtrl

/-- The condition of `relaydmawrqsync`. -/
def Releasable (m : DMAWideCtrl) : Prop :=
  ∃ r ∈ m.reqQ.items.head?, r.2.words ≤ m.dmaWriteIn - m.dmaWriteOut

/-- Besides its condition the rule needs room behind it. -/
theorem relaydmawrqsync_isSome (m : DMAWideCtrl)
    : m.relaydmawrqsync.isSome ↔ m.Releasable ∧ m.sfifodma.items.length < 8 := by
  constructor
  · intro enabled
    obtain ⟨m', fires⟩ := Option.isSome_iff_exists.mp enabled
    obtain ⟨⟨r, reqQ⟩, taken, fires⟩ := Option.bind_eq_some_iff.mp fires
    simp only at fires
    split at fires
    next inTime =>
      obtain ⟨sfifodma, put, ⟨⟩⟩ := Option.bind_eq_some_iff.mp fires
      have head : m.reqQ.items.head? = some r := by rw [Fifo.deq_eq_some.mp taken]; rfl
      exact ⟨⟨r, head, inTime⟩, (Fifo.enq_eq_some.mp put).1⟩
    next => cases fires
  · rintro ⟨⟨r, head, inTime⟩, room⟩
    obtain ⟨rest, items⟩ := List.head?_eq_some_iff.mp head
    obtain ⟨reqQ, taken, -⟩ := Fifo.deq_of_items items
    obtain ⟨sfifodma, put⟩ := Fifo.enq_of_room room r
    simp only [relaydmawrqsync, taken, put, if_pos inTime, Option.bind_eq_bind,
      Option.bind_some]
    rfl

/-- The head chunk is released exactly when its words and those of all chunks before it are
supplied, two by each call.
-/
def ReleasesInTime (m : DMAWideCtrl) (log : WideLog) : Prop :=
  ∀ r ∈ m.reqQ.items.head?, m.Releasable ↔ log.upTo r.2 ≤ 2 * log.calls

/-- There are as many calls as words up to the head chunk, or less than half as many. -/
def CallsApart (m : DMAWideCtrl) (log : WideLog) : Prop :=
  ∀ r ∈ m.reqQ.items.head?, log.upTo r.2 ≤ log.calls ∨ 2 * log.calls < log.upTo r.2

end DMAWideCtrl

-----------------------------------------------------------------------------------------
-- The invariant
-----------------------------------------------------------------------------------------

namespace UserSide

/-- The chunks that are not made yet. -/
def undivided (u : UserSide) : List DMAReq :=
  (if u.writeWordsRemain = 0 then []
    else wideChunks u.writeCurAddr u.writeWordsRemain.toNat u.writeCurTag)
  ++ u.writeReqQ.flatMap (fun r => wideChunks r.1 r.2.1.toNat r.2.2)

/-- The chunks lie in the module in the order of the requests, and its counters count calls
and released words; `sent` words have gone to the PCIe side.
-/
structure Counted (u : UserSide) (dmaWriteIn dmaWriteOut : BitVec 10) (log : WideLog)
    (sent : Nat) : Prop where
  chunks : log.issued ++ u.requests ++ u.undivided = log.chunks
  released : log.issued ++ u.merged ++ u.sfifodma.map Prod.snd = log.released
  labels : ∀ r ∈ u.sfifodma ++ u.reqQ, r.1 = 0
  passed : sent + u.underway = chunkWords log.issued
  supplied
    : sent + u.dmaWriteQ.length + u.dmaSerBuf.toList.length + 2 * u.dmaWritecQ.length
      = 2 * log.calls
  callsIn : dmaWriteIn = BitVec.ofNat 10 log.calls
  wordsOut : dmaWriteOut = BitVec.ofNat 10 (chunkWords log.released)
  ahead : chunkWords log.released ≤ log.calls

/-- The first chunk of 8 words or more, and the rest. -/
theorem divide_eq (addr : BitVec 32) {words : BitVec 32} (tag : BitVec 8) (many : 8 ≤ words)
    : (⟨addr, 8, tag⟩ : DMAReq)
        :: (if words - 8 = 0 then [] else wideChunks (addr + 128) (words - 8).toNat tag)
      = wideChunks addr words.toNat tag := by
  have large : 8 ≤ words.toNat := many
  have fewer : (words - 8).toNat = words.toNat - 8 := by bv_omega
  split
  next none =>
    have eight : words.toNat = 8 := by
      rw [none] at fewer
      change 0 = _ at fewer
      omega
    rw [eight, wideChunks_last addr tag (by decide)]
    rfl
  next more =>
    have past : 8 < words.toNat := by
      refine Nat.lt_of_le_of_ne large ?_
      intro eight
      exact more (BitVec.eq_of_toNat_eq (by rw [fewer, ← eight]; rfl))
    rw [wideChunks_next addr tag past, fewer]

/-- A chunk of less than 8 words is the last one. -/
theorem last_eq (addr : BitVec 32) {words : BitVec 32} (tag : BitVec 8) (few : words < 8)
    : [(⟨addr, words.setWidth 10, tag⟩ : DMAReq)] = wideChunks addr words.toNat tag := by
  have small : words.toNat < 8 := few
  have narrow : words.setWidth 10 = BitVec.ofNat 10 words.toNat := by
    rw [← BitVec.ofNat_toNat]
  rw [wideChunks_last addr tag (by omega), narrow]

end UserSide

namespace DMAWideCtrl

/-- The invariant of a run. -/
structure Counted (m : DMAWideCtrl) (log : WideLog) : Prop where
  labelled : m.wm00.Labelled 0 255
  user : ∃ sent, m.userSide.Counted m.dmaWriteIn m.dmaWriteOut log sent

variable {P : TaggedDma} {m m' : DMAWideCtrl} {log : WideLog} {call : Option DmaWriteCall}

namespace Counted

theorem init : Counted mkDMAWideCtrl {} :=
  ⟨.init, 0, rfl, rfl, nofun, rfl, rfl, rfl, rfl, Nat.le_refl _⟩

/-- The queues hold 129 words, so no more calls than that are made in a run. -/
theorem calls_le (counted : Counted m log) : log.calls ≤ 129 := by
  obtain ⟨-, sent, user⟩ := counted
  have all := congrArg chunkWords user.released
  rw [chunkWords_append, chunkWords_append] at all
  have wide : m.userSide.dmaWritecQ.length ≤ 32 := m.dmaWritecQ.bounded
  have narrow : m.userSide.dmaWriteQ.length ≤ 64 := m.dmaWriteQ.bounded
  have buffered : m.userSide.dmaSerBuf.toList.length ≤ 1 := by
    cases m.userSide.dmaSerBuf <;> simp
  have supplied := user.supplied
  have issued := user.passed
  have ahead := user.ahead
  omega

/-- What the counters say about a chunk that is next to be released. -/
theorem releasable_iff (counted : Counted m log) (words : BitVec 10)
    : words ≤ m.dmaWriteIn - m.dmaWriteOut
      ↔ chunkWords log.released + words.toNat ≤ log.calls := by
  have few := counted.calls_le
  obtain ⟨-, sent, user⟩ := counted
  have ahead := user.ahead
  rw [user.callsIn, user.wordsOut, BitVec.le_def, BitVec.toNat_sub, BitVec.toNat_ofNat,
    BitVec.toNat_ofNat]
  omega

/-- A step that leaves the user's side and the counters. -/
theorem same (counted : Counted m log) (labelled : m'.wm00.Labelled 0 255)
    (side : m'.userSide = m.userSide) (callsIn : m'.dmaWriteIn = m.dmaWriteIn)
    (wordsOut : m'.dmaWriteOut = m.dmaWriteOut)
    : Counted m' log := by
  obtain ⟨-, sent, user⟩ := counted
  refine ⟨labelled, sent, ?_⟩
  rw [side, callsIn, wordsOut]
  exact user

-----------------------------------------------------------------------------------------
-- The user's writes
-----------------------------------------------------------------------------------------

theorem relayDmaWriteQ (counted : Counted m log) (fires : m.relayDmaWriteQ = some m')
    : Counted m' log := by
  obtain ⟨labelled, sent, user⟩ := counted
  unfold DMAWideCtrl.relayDmaWriteQ at fires
  split at fires
  next upper buffered =>
    obtain ⟨dmaWriteQ, put, ⟨⟩⟩ := Option.bind_eq_some_iff.mp fires
    refine ⟨labelled, sent, { user with supplied := ?_ }⟩
    rw [← user.supplied]
    simp only [userSide, buffered, (Fifo.enq_eq_some.mp put).2, List.length_append,
      List.length_singleton, Option.toList]
    simp
    omega
  next buffered =>
    obtain ⟨⟨d, dmaWritecQ⟩, taken, fires⟩ := Option.bind_eq_some_iff.mp fires
    obtain ⟨dmaWriteQ, put, ⟨⟩⟩ := Option.bind_eq_some_iff.mp fires
    refine ⟨labelled, sent, { user with supplied := ?_ }⟩
    rw [← user.supplied]
    simp only [userSide, buffered, (Fifo.enq_eq_some.mp put).2, Fifo.deq_eq_some.mp taken,
      List.length_append, List.length_cons, Option.toList]
    simp
    omega

/-- The divider passes a chunk on; it was the first one of those it had left. -/
theorem divide (counted : Counted m log) (c : DMAReq) (remain addr : BitVec 32)
    (tag : BitVec 8) (writeReqQ : Fifo (BitVec 32 × BitVec 32 × BitVec 8) 8)
    {reqQ : Fifo (BitVec 8 × DMAReq) 8} (put : m.reqQ.enq (0, c) = some reqQ)
    (next : m.userSide.undivided
      = c :: (if remain = 0 then [] else wideChunks addr remain.toNat tag)
        ++ writeReqQ.items.flatMap (fun r => wideChunks r.1 r.2.1.toNat r.2.2))
    : Counted { m with
        writeReqQ
        reqQ
        writeWordsRemain := remain
        writeCurAddr := addr
        writeCurTag := tag } log := by
  obtain ⟨labelled, sent, user⟩ := counted
  have items := (Fifo.enq_eq_some.mp put).2
  refine ⟨labelled, sent, { user with chunks := ?_, labels := ?_ }⟩
  · rw [← user.chunks, next]
    simp [UserSide.requests, UserSide.undivided, userSide, items]
  · intro r member
    simp only [userSide, items, ← List.append_assoc] at member
    rcases List.mem_append.mp member with old | new
    · exact user.labels r old
    · rw [List.mem_singleton.mp new]

theorem startDivideWriteReq (counted : Counted m log)
    (fires : m.startDivideWriteReq = some m')
    : Counted m' log := by
  unfold DMAWideCtrl.startDivideWriteReq at fires
  split at fires
  next idle =>
    obtain ⟨⟨⟨addr, words, tag⟩, writeReqQ⟩, taken, fires⟩ := Option.bind_eq_some_iff.mp fires
    have left : m.userSide.undivided = wideChunks addr words.toNat tag
        ++ writeReqQ.items.flatMap (fun r => wideChunks r.1 r.2.1.toNat r.2.2) := by
      simp [UserSide.undivided, userSide, idle, Fifo.deq_eq_some.mp taken]
    simp only at fires
    split at fires
    next few =>
      obtain ⟨reqQ, put, ⟨⟩⟩ := Option.bind_eq_some_iff.mp fires
      refine counted.divide ⟨addr, words.setWidth 10, tag⟩ m.writeWordsRemain m.writeCurAddr
        m.writeCurTag writeReqQ put ?_
      rw [left, ← UserSide.last_eq addr tag few, idle]
      rfl
    next many =>
      obtain ⟨reqQ, put, ⟨⟩⟩ := Option.bind_eq_some_iff.mp fires
      refine counted.divide ⟨addr, 8, tag⟩ (words - 8) (addr + 128) tag writeReqQ put ?_
      rw [left, ← UserSide.divide_eq addr tag (BitVec.not_lt.mp many)]
  next => cases fires

theorem divideWritereq (counted : Counted m log) (fires : m.divideWritereq = some m')
    : Counted m' log := by
  unfold DMAWideCtrl.divideWritereq at fires
  split at fires
  next busy =>
    have some : m.writeWordsRemain ≠ 0 := by
      intro none
      rw [none] at busy
      exact absurd busy (BitVec.lt_irrefl _)
    have left : m.userSide.undivided
        = wideChunks m.writeCurAddr m.writeWordsRemain.toNat m.writeCurTag
          ++ m.writeReqQ.items.flatMap (fun r => wideChunks r.1 r.2.1.toNat r.2.2) := by
      rw [UserSide.undivided, if_neg (show m.userSide.writeWordsRemain ≠ 0 from some)]
      rfl
    split at fires
    next many =>
      obtain ⟨reqQ, put, ⟨⟩⟩ := Option.bind_eq_some_iff.mp fires
      refine counted.divide ⟨m.writeCurAddr, 8, m.writeCurTag⟩ (m.writeWordsRemain - 8)
        (m.writeCurAddr + 128) m.writeCurTag m.writeReqQ put ?_
      rw [left, ← UserSide.divide_eq _ _ many]
    next few =>
      obtain ⟨reqQ, put, ⟨⟩⟩ := Option.bind_eq_some_iff.mp fires
      refine counted.divide ⟨m.writeCurAddr, m.writeWordsRemain.setWidth 10, m.writeCurTag⟩ 0
        (m.writeCurAddr + 128) m.writeCurTag m.writeReqQ put ?_
      rw [left, ← UserSide.last_eq _ _ (BitVec.not_le.mp few)]
      rfl
  next => cases fires

/-- The head chunk is released. -/
theorem relaydmawrqsync {σ : Type} {p : σ} (counted : Counted m log)
    (fires : m.relaydmawrqsync = some m')
    : Counted m' (WideLog.record (m, p) (.rule .relaydmawrqsync) log) := by
  obtain ⟨⟨r, reqQ⟩, taken, fires⟩ := Option.bind_eq_some_iff.mp fires
  simp only at fires
  split at fires
  next inTime =>
    obtain ⟨sfifodma, put, ⟨⟩⟩ := Option.bind_eq_some_iff.mp fires
    have oldest := Fifo.deq_eq_some.mp taken
    have items := (Fifo.enq_eq_some.mp put).2
    have enough := (counted.releasable_iff r.2.words).mp inTime
    obtain ⟨labelled, sent, user⟩ := counted
    have words : chunkWords (log.released ++ [r.2])
        = chunkWords log.released + r.2.words.toNat := by
      rw [chunkWords_append, chunkWords_cons, chunkWords_nil, Nat.add_zero]
    simp only [WideLog.record, oldest, List.take_succ_cons, List.take_zero, List.map_singleton]
    refine ⟨labelled, sent, { user with
      chunks := ?_, released := ?_, labels := ?_, wordsOut := ?_, ahead := ?_ }⟩
    · refine Eq.trans ?_ user.chunks
      simp [UserSide.requests, UserSide.undivided, userSide, items, oldest]
    · rw [← user.released]
      simp [userSide, items]
    · intro other member
      refine user.labels other ?_
      simp only [userSide, items, oldest] at member ⊢
      simpa using member
    · rw [words, BitVec.ofNat_add, ← user.wordsOut, BitVec.ofNat_toNat, BitVec.setWidth_eq]
    · rw [words]
      exact enough
  next => cases fires

/-- A released chunk goes to the merge. -/
theorem relaydmawrq (counted : Counted m log) (fires : m.relaydmawrq = some m')
    : Counted m' log := by
  obtain ⟨⟨⟨src, c⟩, sfifodma⟩, taken, fires⟩ := Option.bind_eq_some_iff.mp fires
  obtain ⟨wm00, put, ⟨⟩⟩ := Option.bind_eq_some_iff.mp fires
  obtain ⟨labelled, sent, user⟩ := counted
  have oldest := Fifo.deq_eq_some.mp taken
  have label : src = 0 := user.labels (src, c) (by simp [userSide, oldest])
  subst label
  obtain ⟨labelled', mine, -⟩ := labelled.enq_port0 (by decide) put
  have passed : withLabel 0 wm00.waiting ++ sfifodma.items.map Prod.snd
      = withLabel 0 m.wm00.waiting ++ m.sfifodma.items.map Prod.snd := by
    rw [mine, oldest, List.append_assoc]
    rfl
  refine ⟨labelled', sent, { user with chunks := ?_, released := ?_, labels := ?_ }⟩
  · refine Eq.trans ?_ user.chunks
    change log.issued ++ (withLabel 0 wm00.waiting ++ sfifodma.items.map Prod.snd
      ++ m.reqQ.items.map Prod.snd) ++ m.userSide.undivided = _
    rw [passed]
    rfl
  · refine Eq.trans ?_ user.released
    change log.issued ++ withLabel 0 wm00.waiting ++ sfifodma.items.map Prod.snd = _
    rw [List.append_assoc, passed, ← List.append_assoc]
    rfl
  · intro other member
    refine user.labels other ?_
    simp only [userSide, oldest, List.cons_append] at member ⊢
    exact List.mem_cons_of_mem _ member

-----------------------------------------------------------------------------------------
-- The PCIe side
-----------------------------------------------------------------------------------------

/-- A chunk of the user or a packet is passed to the PCIe side. -/
theorem issuedmaWrite {σ : Type} {p : σ} (counted : Counted m log)
    (fires : m.issuedmaWrite = some (m', call))
    : Counted m' (WideLog.record (m, p) (.rule .issuedmaWrite) log) := by
  unfold DMAWideCtrl.issuedmaWrite at fires
  split at fires
  next idle =>
    obtain ⟨⟨⟨src, c⟩, wm00⟩, taken, ⟨⟩⟩ := Option.bind_eq_some_iff.mp fires
    obtain ⟨labelled, sent, user⟩ := counted
    obtain ⟨labelled', source, mine, others⟩ := labelled.deq taken
    have head : m.wm00.outQ.items.take 1 = [(src, c)] := by
      obtain ⟨⟨d, outQ⟩, out, same⟩ := Option.bind_eq_some_iff.mp taken
      cases same
      rw [Fifo.deq_eq_some.mp out]
      rfl
    have none : m.userSide.underway = 0 := by simp [userSide, idle]
    have passed := user.passed
    simp only [WideLog.record, head]
    rcases source with rfl | rfl
    · have moved : log.issued ++ [c] ++ withLabel 0 wm00.waiting
          = log.issued ++ withLabel 0 m.wm00.waiting := by
        rw [mine, List.append_assoc]
        rfl
      have one : withLabel 0 [((0 : BitVec 8), c)] = [c] := rfl
      rw [one]
      refine ⟨labelled', sent, { user with chunks := ?_, released := ?_, passed := ?_ }⟩
      · refine Eq.trans ?_ user.chunks
        change log.issued ++ [c] ++ (withLabel 0 wm00.waiting ++ m.userSide.sfifodma.map Prod.snd
          ++ m.userSide.reqQ.map Prod.snd) ++ m.userSide.undivided = log.issued
            ++ (withLabel 0 m.wm00.waiting ++ m.userSide.sfifodma.map Prod.snd
          ++ m.userSide.reqQ.map Prod.snd) ++ m.userSide.undivided
        simp only [← List.append_assoc, moved]
      · refine Eq.trans ?_ user.released
        change log.issued ++ [c] ++ withLabel 0 wm00.waiting ++ _ = _
        rw [moved]
        rfl
      · change sent + c.words.toNat = chunkWords (log.issued ++ [c])
        rw [chunkWords_append, chunkWords_cons, chunkWords_nil, ← passed, none]
        rfl
    · have side : DMAWideCtrl.userSide
          { m with wm00, dmaWriteSrc := 255, dmaWriteCnt := c.words } = m.userSide := by
        simp only [DMAWideCtrl.userSide, idle, others 0 (by decide)]
        simp
      have other : withLabel 0 [((255 : BitVec 8), c)] = [] := rfl
      refine ⟨labelled', sent, ?_⟩
      rw [side, other, List.append_nil]
      exact user
  next => cases fires

/-- A word of the user or of a packet is sent. -/
theorem senddmaWriteData (counted : Counted m log)
    (fires : m.senddmaWriteData = some (m', call))
    : Counted m' log := by
  unfold DMAWideCtrl.senddmaWriteData at fires
  split at fires
  next busy =>
    have some : 0 < m.dmaWriteCnt.toNat := busy
    have fewer : (m.dmaWriteCnt - 1).toNat = m.dmaWriteCnt.toNat - 1 := by bv_omega
    split at fires
    next mine =>
      obtain ⟨⟨d, dmaWriteQ⟩, taken, ⟨⟩⟩ := Option.bind_eq_some_iff.mp fires
      obtain ⟨labelled, sent, user⟩ := counted
      have passed := user.passed
      have supplied := user.supplied
      simp only [userSide, if_pos mine, Fifo.deq_eq_some.mp taken, List.length_cons]
        at passed supplied
      refine ⟨labelled, sent + 1, { user with passed := ?_, supplied := ?_ }⟩
      · simp only [userSide, if_pos mine, fewer]
        omega
      · simp only [userSide]
        omega
    next other =>
      obtain ⟨⟨d, enqDmaWriteQ⟩, taken, fires⟩ := Option.bind_eq_some_iff.mp fires
      obtain ⟨assertInterruptQ, rfl⟩ : ∃ assertInterruptQ,
          m' = { m with dmaWriteCnt := m.dmaWriteCnt - 1, enqDmaWriteQ, assertInterruptQ } := by
        simp only at fires
        split at fires
        next =>
          obtain ⟨assertInterruptQ, _, ⟨⟩⟩ := Option.bind_eq_some_iff.mp fires
          exact ⟨assertInterruptQ, rfl⟩
        next =>
          cases fires
          exact ⟨m.assertInterruptQ, rfl⟩
      refine counted.same counted.labelled ?_ rfl rfl
      simp only [userSide, if_neg other]
  next => cases fires

/-- A merge step keeps the order of the user's chunks. -/
theorem merge (counted : Counted m log) (fires : m.merge = some m') : Counted m' log := by
  obtain ⟨wm00, merged, ⟨⟩⟩ := Option.bind_eq_some_iff.mp fires
  obtain ⟨labelled, same⟩ := counted.labelled.merge (by decide) merged
  refine counted.same labelled ?_ rfl rfl
  rw [userSide, same 0]
  rfl

/-- A packet enters the merge with its own label. -/
theorem startEnqPacket (counted : Counted m log) (fires : m.startEnqPacket = some m')
    : Counted m' log := by
  unfold DMAWideCtrl.startEnqPacket at fires
  split at fires
  next =>
    obtain ⟨⟨word, enq2Q⟩, _, fires⟩ := Option.bind_eq_some_iff.mp fires
    obtain ⟨enqDataQ, _, fires⟩ := Option.bind_eq_some_iff.mp fires
    obtain ⟨wm00, put, ⟨⟩⟩ := Option.bind_eq_some_iff.mp fires
    obtain ⟨labelled, -, others⟩ := counted.labelled.enq_port1 put
    refine counted.same labelled ?_ rfl rfl
    rw [userSide, others 0 (by decide)]
    rfl
  next => cases fires

-----------------------------------------------------------------------------------------
-- Runs
-----------------------------------------------------------------------------------------

/-- Every rule keeps the invariant. -/
theorem fire {σ : Type} {p : σ} {rule : DMAWideCtrlRule} (counted : Counted m log)
    (fires : m.fire rule = some (m', call))
    : Counted m' (WideLog.record (m, p) (.rule rule) log) := by
  cases rule with
  | procFC =>
      obtain ⟨_, fired, ⟨⟩⟩ := Option.map_eq_some_iff.mp fires
      obtain ⟨⟨d, userWrite1Q⟩, _, fired⟩ := Option.bind_eq_some_iff.mp fired
      simp only at fired
      split_ifs at fired
      · obtain ⟨userWriteQ, _, ⟨⟩⟩ := Option.bind_eq_some_iff.mp fired
        exact counted.same counted.labelled rfl rfl rfl
      all_goals
        cases fired
        exact counted.same counted.labelled rfl rfl rfl
  | userWriteReq =>
      obtain ⟨_, fired, ⟨⟩⟩ := Option.map_eq_some_iff.mp fires
      obtain ⟨⟨d, userWriteQ⟩, _, fired⟩ := Option.bind_eq_some_iff.mp fired
      simp only at fired
      split at fired
      next =>
        obtain ⟨ioRecvQ, _, fired⟩ := Option.bind_eq_some_iff.mp fired
        obtain ⟨ioRecvHQ, _, ⟨⟩⟩ := Option.bind_eq_some_iff.mp fired
        exact counted.same counted.labelled rfl rfl rfl
      next =>
        cases fired
        exact counted.same counted.labelled rfl rfl rfl
  | relayDmaWriteQ =>
      obtain ⟨_, fired, ⟨⟩⟩ := Option.map_eq_some_iff.mp fires
      exact counted.relayDmaWriteQ fired
  | startDivideWriteReq =>
      obtain ⟨_, fired, ⟨⟩⟩ := Option.map_eq_some_iff.mp fires
      exact counted.startDivideWriteReq fired
  | divideWritereq =>
      obtain ⟨_, fired, ⟨⟩⟩ := Option.map_eq_some_iff.mp fires
      exact counted.divideWritereq fired
  | relaydmawrqsync =>
      obtain ⟨_, fired, ⟨⟩⟩ := Option.map_eq_some_iff.mp fires
      exact counted.relaydmawrqsync fired
  | relaydmawrq =>
      obtain ⟨_, fired, ⟨⟩⟩ := Option.map_eq_some_iff.mp fires
      exact counted.relaydmawrq fired
  | merge =>
      obtain ⟨_, fired, ⟨⟩⟩ := Option.map_eq_some_iff.mp fires
      exact counted.merge fired
  | assertInterrupt =>
      obtain ⟨_, fired, ⟨⟩⟩ := Option.map_eq_some_iff.mp fires
      obtain ⟨⟨_, assertInterruptQ⟩, _, ⟨⟩⟩ := Option.bind_eq_some_iff.mp fired
      exact counted.same counted.labelled rfl rfl rfl
  | issuedmaWrite => exact counted.issuedmaWrite fires
  | senddmaWriteData => exact counted.senddmaWriteData fires
  | relayEnqPacket =>
      obtain ⟨_, fired, ⟨⟩⟩ := Option.map_eq_some_iff.mp fires
      obtain ⟨_, _, fired⟩ := Option.bind_eq_some_iff.mp fired
      obtain ⟨_, _, fired⟩ := Option.bind_eq_some_iff.mp fired
      obtain ⟨_, _, fired⟩ := Option.bind_eq_some_iff.mp fired
      obtain ⟨_, _, ⟨⟩⟩ := Option.bind_eq_some_iff.mp fired
      exact counted.same counted.labelled rfl rfl rfl
  | relayEnqPacketC =>
      obtain ⟨_, fired, ⟨⟩⟩ := Option.map_eq_some_iff.mp fires
      obtain ⟨_, _, fired⟩ := Option.bind_eq_some_iff.mp fired
      obtain ⟨_, _, fired⟩ := Option.bind_eq_some_iff.mp fired
      obtain ⟨_, _, fired⟩ := Option.bind_eq_some_iff.mp fired
      obtain ⟨_, _, ⟨⟩⟩ := Option.bind_eq_some_iff.mp fired
      exact counted.same counted.labelled rfl rfl rfl
  | startEnqPacket =>
      obtain ⟨_, fired, ⟨⟩⟩ := Option.map_eq_some_iff.mp fires
      exact counted.startEnqPacket fired
  | sendEnqPacket =>
      obtain ⟨_, fired, ⟨⟩⟩ := Option.map_eq_some_iff.mp fires
      unfold DMAWideCtrl.sendEnqPacket at fired
      split at fired
      next =>
        obtain ⟨_, _, fired⟩ := Option.bind_eq_some_iff.mp fired
        obtain ⟨_, _, ⟨⟩⟩ := Option.bind_eq_some_iff.mp fired
        exact counted.same counted.labelled rfl rfl rfl
      next => cases fired
  | sendEnqIdx =>
      obtain ⟨_, fired, ⟨⟩⟩ := Option.map_eq_some_iff.mp fires
      unfold DMAWideCtrl.sendEnqIdx at fired
      split at fired
      next =>
        obtain ⟨_, _, fired⟩ := Option.bind_eq_some_iff.mp fired
        obtain ⟨_, _, ⟨⟩⟩ := Option.bind_eq_some_iff.mp fired
        exact counted.same counted.labelled rfl rfl rfl
      next => cases fired

/-- A request for user words. -/
theorem dmaWriteReq {σ : Type} {p : σ} (counted : Counted m log) {addr words : BitVec 32}
    {tag : BitVec 8} (small : words.toNat < 2 ^ 31)
    (fires : m.dmaWriteReq addr words tag = some m')
    : Counted m' (WideLog.record (m, p) (.dmaWriteReq addr words tag) log) := by
  obtain ⟨writeReqQ, put, ⟨⟩⟩ := Option.bind_eq_some_iff.mp fires
  obtain ⟨labelled, sent, user⟩ := counted
  have wide : (words * 2).toNat = 2 * words.toNat := by
    rw [BitVec.toNat_mul]
    change words.toNat * 2 % 2 ^ 32 = _
    omega
  refine ⟨labelled, sent, { user with chunks := ?_ }⟩
  have before := user.chunks
  simp only [WideLog.record, WideLog.chunks, UserSide.requests, UserSide.undivided, userSide,
    (Fifo.enq_eq_some.mp put).2, List.flatMap_append, List.flatMap_singleton, wide] at before ⊢
  rw [← before]
  simp only [List.append_assoc]
  rfl

/-- A wide word is supplied. -/
theorem dmaWriteData {σ : Type} {p : σ} (counted : Counted m log) {data : BitVec 256}
    {tag : BitVec 8} (fires : m.dmaWriteData data tag = some m')
    : Counted m' (WideLog.record (m, p) (.dmaWriteData data tag) log) := by
  obtain ⟨dmaWritecQ, put, ⟨⟩⟩ := Option.bind_eq_some_iff.mp fires
  obtain ⟨labelled, sent, user⟩ := counted
  have supplied := user.supplied
  have ahead := user.ahead
  refine ⟨labelled, sent, { user with supplied := ?_, callsIn := ?_, ahead := ?_ }⟩
  · simp only [userSide, WideLog.record, (Fifo.enq_eq_some.mp put).2, List.length_append,
      List.length_singleton] at supplied ⊢
    omega
  · rw [WideLog.record, BitVec.ofNat_add, ← user.callsIn]
    rfl
  · simp only [WideLog.record]
    omega

/-- Every event keeps the invariant. -/
theorem step {s s' : DMAWideCtrl × P.State} {e : DMAWideCtrlEvent}
    (counted : Counted s.1 log) (small : WideLog.Small s e)
    (fires : DMAWideCtrl.step P s e = some s')
    : Counted s'.1 (WideLog.record s e log) := by
  cases e with
  | getWriteReq d =>
      obtain ⟨_, fired, rfl⟩ := Option.map_eq_some_iff.mp fires
      obtain ⟨_, _, ⟨⟩⟩ := Option.bind_eq_some_iff.mp fired
      exact counted.same counted.labelled rfl rfl rfl
  | rule rule =>
      obtain ⟨⟨m', call⟩, fired, fires⟩ := Option.bind_eq_some_iff.mp fires
      obtain ⟨p', _, ⟨⟩⟩ := Option.bind_eq_some_iff.mp fires
      exact counted.fire fired
  | pcie =>
      obtain ⟨p', _, rfl⟩ := Option.map_eq_some_iff.mp fires
      exact counted
  | dmaWriteReq addr words tag =>
      obtain ⟨_, fired, rfl⟩ := Option.map_eq_some_iff.mp fires
      exact counted.dmaWriteReq small fired
  | dmaWriteData data tag =>
      obtain ⟨_, fired, rfl⟩ := Option.map_eq_some_iff.mp fires
      exact counted.dmaWriteData fired
  | enq head word =>
      obtain ⟨_, fired, rfl⟩ := Option.map_eq_some_iff.mp fires
      obtain ⟨_, _, fired⟩ := Option.bind_eq_some_iff.mp fired
      obtain ⟨_, _, ⟨⟩⟩ := Option.bind_eq_some_iff.mp fired
      exact counted.same counted.labelled rfl rfl rfl
  | deq =>
      obtain ⟨_, fired, rfl⟩ := Option.map_eq_some_iff.mp fires
      obtain ⟨_, _, fired⟩ := Option.bind_eq_some_iff.mp fired
      obtain ⟨_, _, ⟨⟩⟩ := Option.bind_eq_some_iff.mp fired
      exact counted.same counted.labelled rfl rfl rfl

end Counted

/-- The invariant holds in every run. -/
theorem reach_counted {state : (DMAWideCtrl × P.State) × WideLog}
    (run : Reach (traced (DMAWideCtrl.step P) WideLog.record)
      (fun state e => WideLog.Small state e) ((mkDMAWideCtrl, P.init), {}) state)
    : Counted state.1.1 state.2 := by
  refine run.invariant (P := fun state => Counted state.1.1 state.2) Counted.init ?_
  intro state e next counted small fires
  obtain ⟨fired, recorded⟩ := traced_eq_some.mp fires
  rw [recorded]
  exact counted.step small fired

/-- The chunks passed to the PCIe side are those of the requests in order, which cover the words
of the requests. The head chunk, which the rule takes when it is releasable and there is room,
is releasable exactly when its words are supplied in the states where there are as many calls
of `dmaWriteData` as words up to it, or less than half as many, and in no other.
-/
theorem wideCtrl_releases (P : TaggedDma) (m : DMAWideCtrl) (p : P.State) (log : WideLog)
    (run : Reach (traced (DMAWideCtrl.step P) WideLog.record)
      (fun state e => WideLog.Small state e) ((mkDMAWideCtrl, P.init), {}) ((m, p), log))
    : log.issued <+: log.chunks
      ∧ log.chunks.flatMap chunkAddrs = log.addrs
      ∧ (m.relaydmawrqsync.isSome ↔ m.Releasable ∧ m.sfifodma.items.length < 8)
      ∧ (m.ReleasesInTime log ↔ m.CallsApart log) := by
  have counted := reach_counted run
  have releasable := counted.releasable_iff
  obtain ⟨-, sent, user⟩ := counted
  refine ⟨?_, log.chunks_addrs, m.relaydmawrqsync_isSome, ?_⟩
  · rw [← user.chunks, List.append_assoc]
    exact List.prefix_append _ _
  · refine forall₂_congr ?_
    intro r head
    have here : m.Releasable ↔ log.upTo r.2 ≤ log.calls := by
      rw [WideLog.upTo, ← releasable r.2.words]
      constructor
      · rintro ⟨other, same, inTime⟩
        cases head.symm.trans same
        exact inTime
      · intro inTime
        exact ⟨r, head, inTime⟩
    rw [here]
    omega

end DMAWideCtrl

/-- A request for `n` wide words is divided once, and `calls` wide words are supplied. -/
def supplyWide (n : BitVec 32) (calls : Nat) : List DMAWideCtrlEvent :=
  [.dmaWriteReq 0 n 5, .rule .startDivideWriteReq]
    ++ List.replicate calls (.dmaWriteData 7 5)

/-- Two calls are less than half of 6 words, and the chunk of 6 words waits. -/
theorem wideCtrl_releases_two
    : ∃ m p log,
        Reach (traced (DMAWideCtrl.step .direct) WideLog.record)
          (fun state e => WideLog.Small state e) ((mkDMAWideCtrl, TaggedDma.direct.init), {})
          ((m, p), log)
        ∧ (m.reqQ.items.map (fun r => (r.2.addr, r.2.words)), log.calls) = ([(4096, 6)], 2)
        ∧ log.issued <+: log.chunks
        ∧ log.chunks.flatMap chunkAddrs = log.addrs
        ∧ (m.relaydmawrqsync.isSome ↔ m.Releasable ∧ m.sfifodma.items.length < 8)
        ∧ (m.ReleasesInTime log ↔ m.CallsApart log) := by
  obtain ⟨⟨⟨m, p⟩, log⟩, run, seen⟩ := exec_reach_map
    (traced (DMAWideCtrl.step .direct) WideLog.record)
    (fun state e => WideLog.Small state e) ((mkDMAWideCtrl, TaggedDma.direct.init), {})
    (supplyWide 3 2)
    (fun s => (s.1.1.reqQ.items.map (fun r => (r.2.addr, r.2.words)), s.2.calls))
    ([(4096, 6)], 2) (by decide +kernel)
  exact ⟨m, p, log, run, seen, DMAWideCtrl.wideCtrl_releases .direct m p log run⟩

/-- All 6 words are supplied by three calls, and the chunk of 6 words waits. -/
theorem wideCtrl_releases_late
    : ∃ m p log,
        Reach (traced (DMAWideCtrl.step .direct) WideLog.record)
          (fun state e => WideLog.Small state e) ((mkDMAWideCtrl, TaggedDma.direct.init), {})
          ((m, p), log)
        ∧ (log.calls, chunkWords log.released, m.dmaWriteIn - m.dmaWriteOut) = (3, 0, 3)
        ∧ ¬ m.ReleasesInTime log := by
  obtain ⟨⟨⟨m, p⟩, log⟩, run, seen⟩ := exec_reach_map
    (traced (DMAWideCtrl.step .direct) WideLog.record)
    (fun state e => WideLog.Small state e) ((mkDMAWideCtrl, TaggedDma.direct.init), {})
    (supplyWide 3 3)
    (fun s => ((s.2.calls, chunkWords s.2.released, s.1.1.dmaWriteIn - s.1.1.dmaWriteOut),
      s.1.1.reqQ.items.head?.map (fun r => r.2.words)))
    ((3, 0, 3), some 6) (by decide +kernel)
  obtain ⟨counters, head⟩ := Prod.mk.inj seen
  obtain ⟨calls, rest⟩ := Prod.mk.inj counters
  obtain ⟨released, ahead⟩ := Prod.mk.inj rest
  obtain ⟨r, here, six⟩ := Option.map_eq_some_iff.mp head
  simp only at calls released ahead here
  refine ⟨m, p, log, run, counters, ?_⟩
  intro inTime
  have supplied : log.upTo r.2 ≤ 2 * log.calls := by
    rw [WideLog.upTo, calls, released, six]
    decide
  obtain ⟨other, same, enough⟩ := (inTime r here).mpr supplied
  cases here.symm.trans same
  rw [six, ahead] at enough
  exact absurd enough (by decide)

end BluespecPcie

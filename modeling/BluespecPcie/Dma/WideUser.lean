import BluespecPcie.Dma.Splitter
import BluespecPcie.MergeLabels

/-! The user's DMA writes in `mkDMAWideCtrl`: they stay above the ring. -/

namespace BluespecPcie

open Bluespec

-----------------------------------------------------------------------------------------
-- The user's side of the module
-----------------------------------------------------------------------------------------

/-- A number of words from `addr` on lies above the ring. -/
def Above (addr : BitVec 32) (n : Nat) : Prop :=
  0 < n → 1024 * 4 ≤ addr.toNat ∧ addr.toNat + 16 * n ≤ 2 ^ 32

/-- The words behind the first ones lie above the ring. -/
theorem Above.behind {addr : BitVec 32} {n k : Nat} (above : Above addr n) (fewer : k ≤ n)
    {size : BitVec 32} (bytes : size.toNat = 16 * k)
    : Above (addr + size) (n - k) := by
  intro some
  obtain ⟨low, high⟩ := above (by omega)
  have sum : (addr + size).toNat = addr.toNat + 16 * k := by
    rw [BitVec.toNat_add, bytes, Nat.mod_eq_of_lt (by omega)]
  omega

/-- Fewer words from the same address on lie above the ring. -/
theorem Above.fewer {addr : BitVec 32} {n k : Nat} (above : Above addr n) (fewer : k ≤ n)
    : Above addr k := by
  intro some
  obtain ⟨low, high⟩ := above (by omega)
  omega

/-- What the user's writes go through: the words of the request under way, the requests in
the merge and before it, and the words supplied.
-/
structure UserSide where
  underway : Nat
  merged : List DMAReq
  sfifodma : List (BitVec 8 × DMAReq)
  reqQ : List (BitVec 8 × DMAReq)
  writeWordsRemain : BitVec 32
  writeCurAddr : BitVec 32
  writeCurTag : BitVec 8
  writeReqQ : List (BitVec 32 × BitVec 32 × BitVec 8)
  dmaWriteQ : List DMAWordTagged
  dmaSerBuf : Option DMAWordTagged
  dmaWritecQ : List WideWordTagged

def DMAWideCtrl.userSide (m : DMAWideCtrl) : UserSide where
  underway := if m.dmaWriteSrc = 0 then m.dmaWriteCnt.toNat else 0
  merged := withLabel 0 m.wm00.waiting
  sfifodma := m.sfifodma.items
  reqQ := m.reqQ.items
  writeWordsRemain := m.writeWordsRemain
  writeCurAddr := m.writeCurAddr
  writeCurTag := m.writeCurTag
  writeReqQ := m.writeReqQ.items
  dmaWriteQ := m.dmaWriteQ.items
  dmaSerBuf := m.dmaSerBuf
  dmaWritecQ := m.dmaWritecQ.items

namespace UserSide

/-- The requests behind the divider, the one nearest to the output first. -/
def requests (u : UserSide) : List DMAReq :=
  u.merged ++ u.sfifodma.map Prod.snd ++ u.reqQ.map Prod.snd

/-- The tags of the words that a request asks for. -/
def tags (r : DMAReq) : List (BitVec 8) := List.replicate r.words.toNat r.tag

/-- The tags of the words that are asked for and not sent; `tag` is that of the request under
way.
-/
def pending (u : UserSide) (tag : BitVec 8) : List (BitVec 8) :=
  List.replicate u.underway tag ++ u.requests.flatMap tags
    ++ List.replicate u.writeWordsRemain.toNat u.writeCurTag
    ++ u.writeReqQ.flatMap (fun r => List.replicate r.2.1.toNat r.2.2)

/-- The tags of the words that are supplied and not sent. -/
def waiting (u : UserSide) : List (BitVec 8) :=
  u.dmaWriteQ.map DMAWordTagged.tag ++ u.dmaSerBuf.toList.map DMAWordTagged.tag
    ++ u.dmaWritecQ.flatMap (fun d => [d.tag, d.tag])

/-- The user's requests lie above the ring, and its words go where they belong. -/
structure Inv (P : TaggedDma) (u : UserSide) (p : P.State) (requested supplied : List (BitVec 8))
    (sent : List (BitVec 8)) (tag : BitVec 8) : Prop where
  asked : requested = sent ++ u.pending tag
  given : supplied = sent ++ u.waiting
  matched : PacketLog.Matched requested supplied
  requests : ∀ r ∈ u.requests, Above r.addr r.words.toNat
  divided : Above u.writeCurAddr u.writeWordsRemain.toNat
  undivided : ∀ r ∈ u.writeReqQ, Above r.1 r.2.1.toNat
  labels : ∀ r ∈ u.sfifodma ++ u.reqQ, r.1 = 0
  lacks : 0 < u.underway → P.lacks p tag = u.underway
  next : Above (P.next p tag) u.underway

variable {P : TaggedDma} {u : UserSide} {p p' : P.State}
  {requested supplied sent : List (BitVec 8)} {tag : BitVec 8}

/-- The divider passes a burst on. -/
theorem Inv.divide (inv : u.Inv P p requested supplied sent tag) (r : DMAReq)
    (remain addr : BitVec 32) (t : BitVec 8) (queue : List (BitVec 32 × BitVec 32 × BitVec 8))
    (same : tags r ++ List.replicate remain.toNat t
        ++ queue.flatMap (fun r => List.replicate r.2.1.toNat r.2.2)
      = List.replicate u.writeWordsRemain.toNat u.writeCurTag
        ++ u.writeReqQ.flatMap (fun r => List.replicate r.2.1.toNat r.2.2))
    (above : Above r.addr r.words.toNat) (divided : Above addr remain.toNat)
    (undivided : ∀ r ∈ queue, Above r.1 r.2.1.toNat)
    : Inv P { u with
        reqQ := u.reqQ ++ [(0, r)]
        writeWordsRemain := remain
        writeCurAddr := addr
        writeCurTag := t
        writeReqQ := queue } p requested supplied sent tag := by
  refine { inv with divided, undivided, asked := ?_, requests := ?_, labels := ?_ }
  · rw [inv.asked]
    simp only [pending, UserSide.requests, List.map_append, List.map_singleton, List.flatMap_append,
      List.flatMap_singleton, List.append_assoc] at same ⊢
    rw [same]
  · intro other member
    simp only [UserSide.requests, List.map_append, List.map_singleton, ← List.append_assoc] at member
    rcases List.mem_append.mp member with old | new
    · exact inv.requests other old
    · rw [List.mem_singleton.mp new]
      exact above
  · intro other member
    simp only [← List.append_assoc] at member
    rcases List.mem_append.mp member with old | new
    · exact inv.labels other old
    · rw [List.mem_singleton.mp new]

/-- The request under way begins: it was the first one of the merge. -/
theorem Inv.issue (inv : u.Inv P p requested supplied sent tag) (idle : u.underway = 0)
    {cmd : DMAReq} {merged : List DMAReq} (first : u.merged = cmd :: merged)
    (accepted : P.accept p (some (.dmaWriteReq cmd.addr cmd.words cmd.tag)) = some p')
    : Inv P { u with underway := cmd.words.toNat, merged } p' requested supplied sent cmd.tag
      := by
  obtain ⟨_, next, lacks⟩ := P.of_dmaWriteReq accepted
  refine { inv with asked := ?_, requests := ?_, lacks := fun _ => lacks, next := ?_ }
  · rw [inv.asked]
    simp [pending, UserSide.requests, tags, idle, first]
  · intro other member
    refine inv.requests other ?_
    simp only [UserSide.requests, first, List.cons_append]
    exact List.mem_cons_of_mem _ member
  · rw [next]
    exact inv.requests cmd (by simp [UserSide.requests, first])

/-- A word of the request under way is sent: it carries the tag of the request, and it is stored
above the ring.
-/
theorem Inv.send (inv : u.Inv P p requested supplied sent tag) (busy : 0 < u.underway)
    {d : DMAWordTagged} {words : List DMAWordTagged} (oldest : u.dmaWriteQ = d :: words)
    (accepted : P.accept p (some (.dmaWriteData d.word d.tag)) = some p')
    : Inv P { u with underway := u.underway - 1, dmaWriteQ := words } p' requested supplied
        (sent ++ [tag]) tag
      ∧ ∃ addr, P.stores p' = P.stores p ++ [(addr, d.word)] ∧ Above addr 1 := by
  have matched := inv.matched
  have split : List.replicate u.underway tag = tag :: List.replicate (u.underway - 1) tag := by
    conv_lhs => rw [← Nat.succ_pred_eq_of_pos busy, List.replicate_succ]
    rfl
  have asked : requested
      = sent ++ tag :: pending { u with underway := u.underway - 1, dmaWriteQ := words } tag := by
    rw [inv.asked]
    simp [pending, UserSide.requests, split]
  have given : supplied
      = sent ++ d.tag :: waiting { u with underway := u.underway - 1, dmaWriteQ := words } := by
    rw [inv.given]
    simp [waiting, oldest]
  have mine : d.tag = tag := by
    rw [asked, given] at matched
    rcases matched with fewer | more
    · rw [List.prefix_append_right_inj, List.cons_prefix_cons] at fewer
      exact fewer.1.symm
    · rw [List.prefix_append_right_inj, List.cons_prefix_cons] at more
      exact more.1
  rw [mine] at accepted given
  have lacks := inv.lacks busy
  obtain ⟨stores, next, fewer⟩ := P.of_dmaWriteData accepted (by rw [lacks]; exact busy)
  refine ⟨{ inv with asked := ?_, given := ?_, lacks := ?_, next := ?_ }, P.next p tag, stores,
    inv.next.fewer busy⟩
  · rw [asked, List.append_assoc, List.singleton_append]
  · rw [given, List.append_assoc, List.singleton_append]
  · intro _
    rw [fewer, lacks]
  · rw [next]
    exact inv.next.behind busy rfl

/-- While none of its words are sent, the interface is free for others. -/
theorem Inv.idle (inv : u.Inv P p requested supplied sent tag) (idle : u.underway = 0)
    (p' : P.State)
    : u.Inv P p' requested supplied sent tag := by
  refine { inv with lacks := ?_, next := ?_ }
  · intro busy
    omega
  · intro busy
    omega

/-- A step of the interface. -/
theorem Inv.pcie (inv : u.Inv P p requested supplied sent tag) (moved : P.internal p = some p')
    : u.Inv P p' requested supplied sent tag := by
  obtain ⟨_, next, lacks⟩ := P.of_internal moved
  refine { inv with lacks := ?_, next := ?_ }
  · rw [lacks]
    exact inv.lacks
  · rw [next]
    exact inv.next

end UserSide

-----------------------------------------------------------------------------------------
-- Steps
-----------------------------------------------------------------------------------------

namespace DMAWideCtrl

variable {P : TaggedDma} {m m' : DMAWideCtrl} {p p' : P.State}
  {requested supplied sent : List (BitVec 8)} {tag : BitVec 8}

theorem userInv_relayDmaWriteQ (inv : m.userSide.Inv P p requested supplied sent tag)
    (fires : m.relayDmaWriteQ = some m')
    : m'.userSide.Inv P p requested supplied sent tag := by
  unfold relayDmaWriteQ at fires
  split at fires
  next upper buffered =>
    obtain ⟨dmaWriteQ, put, ⟨⟩⟩ := Option.bind_eq_some_iff.mp fires
    refine { inv with given := ?_ }
    rw [inv.given]
    simp [UserSide.waiting, userSide, buffered, (Fifo.enq_eq_some.mp put).2]
  next buffered =>
    obtain ⟨⟨d, dmaWritecQ⟩, taken, fires⟩ := Option.bind_eq_some_iff.mp fires
    obtain ⟨dmaWriteQ, put, ⟨⟩⟩ := Option.bind_eq_some_iff.mp fires
    refine { inv with given := ?_ }
    rw [inv.given]
    simp [UserSide.waiting, userSide, buffered, (Fifo.enq_eq_some.mp put).2,
      Fifo.deq_eq_some.mp taken]

/-- A request goes to the divider: its first burst goes on. -/
theorem userInv_startDivideWriteReq (inv : m.userSide.Inv P p requested supplied sent tag)
    (fires : m.startDivideWriteReq = some m')
    : m'.userSide.Inv P p requested supplied sent tag := by
  unfold startDivideWriteReq at fires
  split at fires
  next idle =>
    obtain ⟨⟨⟨addr, words, t⟩, writeReqQ⟩, taken, fires⟩ := Option.bind_eq_some_iff.mp fires
    have oldest : m.writeReqQ.items = (addr, words, t) :: writeReqQ.items :=
      Fifo.deq_eq_some.mp taken
    have above : Above addr words.toNat :=
      inv.undivided (addr, words, t) (by simp [userSide, oldest])
    have rest : ∀ r ∈ writeReqQ.items, Above r.1 r.2.1.toNat :=
      fun r member => inv.undivided r (by simp [userSide, oldest, member])
    simp only at fires
    split at fires
    next small =>
      obtain ⟨reqQ, put, ⟨⟩⟩ := Option.bind_eq_some_iff.mp fires
      have few : words.toNat < 8 := small
      have narrow : (words.setWidth 10).toNat = words.toNat := by
        rw [BitVec.toNat_setWidth]
        omega
      have after := inv.divide ⟨addr, words.setWidth 10, t⟩ m.writeWordsRemain m.writeCurAddr
        m.writeCurTag writeReqQ.items
        (by simp [UserSide.tags, userSide, idle, oldest, narrow]) (by rw [narrow]; exact above)
        inv.divided rest
      rw [userSide, (Fifo.enq_eq_some.mp put).2]
      exact after
    next large =>
      obtain ⟨reqQ, put, ⟨⟩⟩ := Option.bind_eq_some_iff.mp fires
      have many : 8 ≤ words.toNat := Nat.le_of_not_lt large
      have fewer : (words - 8).toNat = words.toNat - 8 := by bv_omega
      have total : words.toNat = 8 + (words - 8).toNat := by omega
      have after := inv.divide ⟨addr, 8, t⟩ (words - 8) (addr + 128) t writeReqQ.items
        (by
          simp only [UserSide.tags, userSide, idle, oldest, List.flatMap_cons]
          rw [total, List.replicate_add]
          simp)
        (above.fewer many) (by rw [fewer]; exact above.behind many rfl) rest
      rw [userSide, (Fifo.enq_eq_some.mp put).2]
      exact after
  next => cases fires

/-- The next burst of a divided request goes on. -/
theorem userInv_divideWritereq (inv : m.userSide.Inv P p requested supplied sent tag)
    (fires : m.divideWritereq = some m')
    : m'.userSide.Inv P p requested supplied sent tag := by
  have above : Above m.writeCurAddr m.writeWordsRemain.toNat := inv.divided
  unfold divideWritereq at fires
  split at fires
  next =>
    split at fires
    next large =>
      obtain ⟨reqQ, put, ⟨⟩⟩ := Option.bind_eq_some_iff.mp fires
      have many : 8 ≤ m.writeWordsRemain.toNat := large
      have fewer : (m.writeWordsRemain - 8).toNat = m.writeWordsRemain.toNat - 8 := by bv_omega
      have total : m.writeWordsRemain.toNat = 8 + (m.writeWordsRemain - 8).toNat := by omega
      have after := inv.divide ⟨m.writeCurAddr, 8, m.writeCurTag⟩ (m.writeWordsRemain - 8)
        (m.writeCurAddr + 128) m.writeCurTag m.writeReqQ.items
        (by
          simp only [UserSide.tags, userSide]
          rw [total, List.replicate_add]
          simp)
        (above.fewer many) (by rw [fewer]; exact above.behind many rfl) inv.undivided
      rw [userSide, (Fifo.enq_eq_some.mp put).2]
      exact after
    next small =>
      obtain ⟨reqQ, put, ⟨⟩⟩ := Option.bind_eq_some_iff.mp fires
      have few : m.writeWordsRemain.toNat < 8 := Nat.lt_of_not_le small
      have narrow : (m.writeWordsRemain.setWidth 10).toNat = m.writeWordsRemain.toNat := by
        rw [BitVec.toNat_setWidth]
        omega
      have after := inv.divide ⟨m.writeCurAddr, m.writeWordsRemain.setWidth 10, m.writeCurTag⟩ 0
        (m.writeCurAddr + 128) m.writeCurTag m.writeReqQ.items
        (by simp [UserSide.tags, userSide, narrow]) (by rw [narrow]; exact above)
        (fun positive => absurd positive (Nat.lt_irrefl 0)) inv.undivided
      rw [userSide, (Fifo.enq_eq_some.mp put).2]
      exact after
  next => cases fires

theorem userInv_relaydmawrqsync (inv : m.userSide.Inv P p requested supplied sent tag)
    (fires : m.relaydmawrqsync = some m')
    : m'.userSide.Inv P p requested supplied sent tag := by
  obtain ⟨⟨r, reqQ⟩, taken, fires⟩ := Option.bind_eq_some_iff.mp fires
  have oldest := Fifo.deq_eq_some.mp taken
  simp only at fires
  split at fires
  next =>
    obtain ⟨sfifodma, put, ⟨⟩⟩ := Option.bind_eq_some_iff.mp fires
    have items := (Fifo.enq_eq_some.mp put).2
    have same : sfifodma.items ++ reqQ.items = m.sfifodma.items ++ m.reqQ.items := by
      rw [items, oldest, List.append_assoc]
      rfl
    have requests : UserSide.requests (userSide { m with
        reqQ, dmaWriteOut := m.dmaWriteOut + r.2.words, sfifodma }) = m.userSide.requests := by
      simp only [UserSide.requests, userSide, List.append_assoc, ← List.map_append, same]
    refine { inv with asked := ?_, requests := ?_, labels := ?_ }
    · rw [inv.asked]
      simp only [UserSide.pending, requests]
      rfl
    · rw [requests]
      exact inv.requests
    · simp only [userSide, same]
      exact inv.labels
  next => cases fires

theorem userInv_relaydmawrq (inv : m.userSide.Inv P p requested supplied sent tag)
    (labelled : m.wm00.Labelled 0 255) (fires : m.relaydmawrq = some m')
    : m'.userSide.Inv P p requested supplied sent tag ∧ m'.wm00.Labelled 0 255
      ∧ withLabel 255 m'.wm00.waiting = withLabel 255 m.wm00.waiting := by
  obtain ⟨⟨r, sfifodma⟩, taken, fires⟩ := Option.bind_eq_some_iff.mp fires
  obtain ⟨wm00, put, ⟨⟩⟩ := Option.bind_eq_some_iff.mp fires
  have oldest := Fifo.deq_eq_some.mp taken
  have label : r.1 = 0 := inv.labels r (by simp [userSide, oldest])
  obtain ⟨_, req⟩ := r
  subst label
  obtain ⟨labelled', mine, others⟩ := labelled.enq_port0 (by decide) put
  have requests : UserSide.requests (userSide { m with sfifodma, wm00 })
      = m.userSide.requests := by
    change withLabel 0 wm00.waiting ++ sfifodma.items.map Prod.snd ++ m.reqQ.items.map Prod.snd
      = withLabel 0 m.wm00.waiting ++ m.sfifodma.items.map Prod.snd ++ m.reqQ.items.map Prod.snd
    rw [mine, oldest]
    simp
  refine ⟨{ inv with asked := ?_, requests := ?_, labels := ?_ }, labelled',
    others 255 (by decide)⟩
  · rw [inv.asked]
    simp only [UserSide.pending, requests]
    rfl
  · rw [requests]
    exact inv.requests
  · exact fun other member => inv.labels other (by
      simp only [userSide, oldest, List.cons_append]
      exact List.mem_cons_of_mem _ member)

/-- A request for user words and its tag. -/
theorem userInv_dmaWriteReq (inv : m.userSide.Inv P p requested supplied sent tag)
    {addr words : BitVec 32} {t : BitVec 8}
    (within : addr.toNat + 1024 * 4 + 32 * words.toNat ≤ 2 ^ 32)
    (matched : PacketLog.Matched (requested ++ List.replicate (2 * words.toNat) t) supplied)
    (fires : m.dmaWriteReq addr words t = some m')
    : m'.userSide.Inv P p (requested ++ List.replicate (2 * words.toNat) t) supplied sent tag
      := by
  obtain ⟨writeReqQ, put, ⟨⟩⟩ := Option.bind_eq_some_iff.mp fires
  have items := (Fifo.enq_eq_some.mp put).2
  have wide : (words * 2).toNat = 2 * words.toNat := by
    rw [BitVec.toNat_mul]
    change words.toNat * 2 % 2 ^ 32 = _
    omega
  have more : writeReqQ.items.flatMap (fun r => List.replicate r.2.1.toNat r.2.2)
      = m.writeReqQ.items.flatMap (fun r => List.replicate r.2.1.toNat r.2.2)
        ++ List.replicate (2 * words.toNat) t := by
    rw [items, List.flatMap_append, List.flatMap_singleton, wide]
  refine { inv with asked := ?_, matched, undivided := ?_ }
  · rw [inv.asked]
    simp only [UserSide.pending, userSide, more, List.append_assoc]
    rfl
  · intro r member
    simp only [userSide, items] at member
    rcases List.mem_append.mp member with old | new
    · exact inv.undivided r old
    · rw [List.mem_singleton.mp new, wide]
      intro some
      have sum : (addr + 1024 * 4).toNat = addr.toNat + 1024 * 4 := by
        rw [BitVec.toNat_add]
        change (addr.toNat + 1024 * 4) % 2 ^ 32 = _
        omega
      change 1024 * 4 ≤ (addr + 1024 * 4).toNat
        ∧ (addr + 1024 * 4).toNat + 16 * (2 * words.toNat) ≤ 2 ^ 32
      omega

/-- A wide word is supplied. -/
theorem userInv_dmaWriteData (inv : m.userSide.Inv P p requested supplied sent tag)
    {data : BitVec 256} {t : BitVec 8}
    (matched : PacketLog.Matched requested (supplied ++ [t, t]))
    (fires : m.dmaWriteData data t = some m')
    : m'.userSide.Inv P p requested (supplied ++ [t, t]) sent tag := by
  obtain ⟨dmaWritecQ, put, ⟨⟩⟩ := Option.bind_eq_some_iff.mp fires
  refine { inv with given := ?_, matched }
  rw [inv.given]
  simp [UserSide.waiting, userSide, (Fifo.enq_eq_some.mp put).2]

end DMAWideCtrl

end BluespecPcie

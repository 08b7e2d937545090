import BluespecPcie.Dram.SplitterLog
import BluespecPcie.MergeItems

/-! Read bursts in `mkDRAMBurstSplitter`: one at a time, each word to its own client. -/

namespace BluespecPcie

open Bluespec

-----------------------------------------------------------------------------------------
-- Addresses and requests
-----------------------------------------------------------------------------------------

/-- A burst goes on with the next address. -/
theorem burstAddrs_succ (addr : BitVec 64) (n : Nat)
    : burstAddrs addr (n + 1) = addr :: burstAddrs (addr + 64) n := by
  rw [burstAddrs, List.range_succ_eq_map, List.map_cons, List.map_map]
  have first : burstAddr addr 0 = addr := by simp [burstAddr]
  rw [first, burstAddrs]
  refine congrArg _ (List.map_congr_left ?_)
  intro j _
  have moved : 64 * (j + 1) = 64 + 64 * j := by omega
  change addr + BitVec.ofNat 64 (64 * (j + 1)) = addr + 64 + BitVec.ofNat 64 (64 * j)
  rw [moved, BitVec.ofNat_add, ← BitVec.add_assoc]
  rfl

/-- The requests with words. -/
def pending (requests : List BurstReq) : List BurstReq :=
  requests.filter (fun r => 0 < r.words)

/-- At most one such request keeps its place. -/
theorem pending_perm {requests requests' : List BurstReq} (same : requests'.Perm requests)
    (few : (pending requests).length ≤ 1)
    : pending requests' = pending requests := by
  have moved : (pending requests').Perm (pending requests) := same.filter _
  match one : pending requests with
  | [] =>
      rw [one] at moved
      exact moved.eq_nil
  | [r] =>
      rw [one] at moved
      exact List.perm_singleton.mp moved
  | _ :: _ :: _ => simp [one] at few

/-- A request without words asks for nothing. -/
theorem pending_flatMap {α : Type} (f : BurstReq → List α) (requests : List BurstReq)
    (none : ∀ r, ¬ 0 < r.words → f r = [])
    : (pending requests).flatMap f = requests.flatMap f := by
  induction requests with
  | nil => rfl
  | cons r requests ih =>
      rw [pending, List.flatMap_cons]
      by_cases some : 0 < r.words
      · rw [List.filter_cons_of_pos (by simpa using some), List.flatMap_cons]
        exact congrArg _ ih
      · rw [List.filter_cons_of_neg (by simpa using some), none r some]
        exact ih

/-- No words, no addresses. -/
theorem BurstReq.addrs_eq_nil {r : BurstReq} (none : ¬ 0 < r.words) : r.addrs = [] := by
  have zero : r.words.toNat = 0 := Nat.eq_zero_of_not_pos none
  rw [BurstReq.addrs, zero]
  rfl

theorem BurstReq.clients_eq_nil {r : BurstReq} (none : ¬ 0 < r.words) : r.clients = [] := by
  have zero : r.words.toNat = 0 := Nat.eq_zero_of_not_pos none
  rw [BurstReq.clients, zero]
  rfl

-----------------------------------------------------------------------------------------
-- The read side
-----------------------------------------------------------------------------------------

/-- What read bursts go through. -/
structure ReadSide where
  requests : List BurstReq
  curReadCnt : BitVec 32
  curClientIdx : BitVec 8
  readWordLeft : BitVec 32
  readCurAddr : BitVec 64
  words : List (BitVec 64 × BitVec 512)
  responses : List (BitVec 512)
  readerdQ : List (BitVec 8 × BitVec 512)
  readerQs : Nat → List (BitVec 512)

def DRAMBurstSplitter.readSide (answer : List DramCall → BitVec 64 → BitVec 512)
    (m : DRAMBurstSplitter) : ReadSide where
  requests := m.readerQ.items ++ m.mReader.items
  curReadCnt := m.curReadCnt
  curClientIdx := m.curClientIdx
  readWordLeft := m.ctl.readWordLeft
  readCurAddr := m.ctl.readCurAddr
  words := readWords answer [] m.ctl.dram.calls
  responses := m.ctl.dram.responses
  readerdQ := m.readerdQ.items
  readerQs := fun i => (m.readerQs i).items

namespace ReadSide

/-- How many words of read bursts are accepted and not given to their clients. -/
def outstanding (u : ReadSide) : Nat :=
  u.readerdQ.length + u.curReadCnt.toNat + ((pending u.requests).flatMap BurstReq.clients).length

/-- The words that went to the clients are `delivered`; behind them come those in the queue,
the rest of the burst under way, and the burst that is not started.
-/
structure Inv (rcnt : Nat) (u : ReadSide) (reads : List BurstReq)
    (got : Nat → List (BitVec 512)) (delivered : List (BitVec 8 × BitVec 512)) : Prop where
  few : (pending u.requests).length ≤ 1
  clients
    : reads.flatMap BurstReq.clients
      = delivered.map Prod.fst ++ u.readerdQ.map Prod.fst
        ++ List.replicate u.curReadCnt.toNat u.curClientIdx
        ++ (pending u.requests).flatMap BurstReq.clients
  addrs
    : reads.flatMap BurstReq.addrs
      = u.words.map Prod.fst ++ burstAddrs u.readCurAddr u.readWordLeft.toNat
        ++ (pending u.requests).flatMap BurstReq.addrs
  data : u.words.map Prod.snd = delivered.map Prod.snd ++ u.readerdQ.map Prod.snd ++ u.responses
  left : u.responses.length + u.readWordLeft.toNat = u.curReadCnt.toNat
  received
    : ∀ i < rcnt,
        got i ++ u.readerQs i = withLabel (BitVec.ofNat 8 i) delivered

variable {rcnt : Nat} {u : ReadSide} {reads : List BurstReq}
  {got : Nat → List (BitVec 512)} {delivered : List (BitVec 8 × BitVec 512)}

/-- After reset. -/
theorem Inv.init (rcnt wcnt : Nat) (answer : List DramCall → BitVec 64 → BitVec 512)
    : Inv rcnt ((mkDRAMBurstSplitter rcnt wcnt).readSide answer) [] (fun _ => []) [] := by
  have none : ((mkDRAMBurstSplitter rcnt wcnt).readSide answer).requests = [] :=
    MergeN.items_mkMergeN rcnt
  refine ⟨?_, ?_, ?_, rfl, rfl, fun _ _ => rfl⟩
  · rw [none]
    exact Nat.zero_le 1
  · rw [none]
    rfl
  · rw [none]
    rfl

/-- A request moves towards the controller. -/
theorem Inv.move (inv : u.Inv rcnt reads got delivered) {requests : List BurstReq}
    (same : requests.Perm u.requests)
    : Inv rcnt { u with requests } reads got delivered
      ∧ outstanding { u with requests } = u.outstanding := by
  have kept := pending_perm same inv.few
  obtain ⟨few, clients, addrs, data, left, received⟩ := inv
  refine ⟨⟨?_, ?_, ?_, data, left, received⟩, by simp only [outstanding, kept]⟩
  · change (pending requests).length ≤ 1
    rw [kept]
    exact few
  · change _ = _ ++ (pending requests).flatMap BurstReq.clients
    rw [kept]
    exact clients
  · change _ = _ ++ (pending requests).flatMap BurstReq.addrs
    rw [kept]
    exact addrs

/-- A request is accepted while none is outstanding. -/
theorem Inv.accept (inv : u.Inv rcnt reads got delivered) (idle : u.outstanding = 0)
    (r : BurstReq) {requests : List BurstReq} (entered : requests.Perm (r :: u.requests))
    : Inv rcnt { u with requests } (reads ++ [r]) got delivered
      ∧ outstanding { u with requests } = r.words.toNat := by
  have empty : pending u.requests = [] := by
    match some : pending u.requests with
    | [] => rfl
    | first :: rest =>
        have positive : 0 < first.words := by
          have member : first ∈ pending u.requests := by simp [some]
          simpa using (List.mem_filter.mp member).2
        have asks : 0 < first.words.toNat := positive
        simp only [outstanding, some, List.flatMap_cons, List.length_append, BurstReq.clients,
          List.length_replicate] at idle
        omega
  have only : pending (r :: u.requests) = pending [r] := by
    rw [pending, ← List.singleton_append, List.filter_append]
    change _ ++ pending u.requests = _
    rw [empty, List.append_nil]
    rfl
  have mine : pending requests = pending [r] := by
    rw [pending_perm entered, only]
    rw [only]
    exact List.length_filter_le _ _
  have clientsR : (pending [r]).flatMap BurstReq.clients = r.clients := by
    rw [pending_flatMap _ _ (fun r none => BurstReq.clients_eq_nil none)]
    simp
  have addrsR : (pending [r]).flatMap BurstReq.addrs = r.addrs := by
    rw [pending_flatMap _ _ (fun r none => BurstReq.addrs_eq_nil none)]
    simp
  obtain ⟨few, clients, addrs, data, left, received⟩ := inv
  refine ⟨⟨?_, ?_, ?_, data, left, received⟩, ?_⟩
  · change (pending requests).length ≤ 1
    rw [mine]
    exact List.length_filter_le _ _
  · change _ = _ ++ (pending requests).flatMap BurstReq.clients
    rw [mine, clientsR, List.flatMap_append, clients, empty]
    simp
  · change _ = _ ++ (pending requests).flatMap BurstReq.addrs
    rw [mine, addrsR, List.flatMap_append, addrs, empty]
    simp
  · simp only [outstanding, empty, List.flatMap_nil, List.length_nil] at idle
    simp only [outstanding, mine, clientsR, BurstReq.clients, List.length_replicate]
    omega

/-- The oldest request starts. -/
theorem Inv.start (inv : u.Inv rcnt reads got delivered) (idle : u.curReadCnt = 0)
    {r : BurstReq} {requests : List BurstReq} (first : u.requests = r :: requests)
    : Inv rcnt { u with
        requests
        curReadCnt := r.words
        curClientIdx := r.idx
        readWordLeft := r.words
        readCurAddr := r.addr } reads got delivered
      ∧ outstanding { u with
          requests
          curReadCnt := r.words
          curClientIdx := r.idx
          readWordLeft := r.words
          readCurAddr := r.addr } = u.outstanding := by
  obtain ⟨few, clients, addrs, data, left, received⟩ := inv
  rw [idle] at clients left
  have noResponses : u.responses = [] := List.eq_nil_of_length_eq_zero (by
    change u.responses.length + _ = 0 at left
    omega)
  have noAddrs : u.readWordLeft.toNat = 0 := by
    change u.responses.length + _ = 0 at left
    omega
  rw [noAddrs] at addrs
  rw [first] at few clients addrs
  rw [pending_flatMap _ _ (fun r none => BurstReq.clients_eq_nil none),
    List.flatMap_cons] at clients
  rw [pending_flatMap _ _ (fun r none => BurstReq.addrs_eq_nil none), List.flatMap_cons] at addrs
  refine ⟨⟨?_, ?_, ?_, data, ?_, received⟩, ?_⟩
  · refine Nat.le_trans ?_ few
    exact (List.Sublist.filter _ (List.sublist_cons_self r requests)).length_le
  · rw [clients, pending_flatMap _ _ (fun r none => BurstReq.clients_eq_nil none)]
    simp [BurstReq.clients]
  · rw [addrs, pending_flatMap _ _ (fun r none => BurstReq.addrs_eq_nil none)]
    simp [BurstReq.addrs, burstAddrs]
  · rw [noResponses]
    exact Nat.zero_add _
  · simp only [outstanding, idle, first]
    rw [pending_flatMap _ requests (fun r none => BurstReq.clients_eq_nil none),
      pending_flatMap _ (r :: requests) (fun r none => BurstReq.clients_eq_nil none),
      List.flatMap_cons, List.length_append, BurstReq.clients, List.length_replicate]
    change _ = u.readerdQ.length + 0 + _
    omega

/-- Another burst starts while no read is under way. -/
theorem Inv.other (inv : u.Inv rcnt reads got delivered) (idle : u.curReadCnt = 0)
    (idx : BitVec 8)
    : Inv rcnt { u with curClientIdx := idx } reads got delivered := by
  refine { inv with clients := ?_ }
  rw [inv.clients, idle]
  rfl

/-- The next word of the burst is requested. -/
theorem Inv.request (inv : u.Inv rcnt reads got delivered) (more : 0 < u.readWordLeft)
    (word : BitVec 512)
    : Inv rcnt { u with
        words := u.words ++ [(u.readCurAddr, word)]
        responses := u.responses ++ [word]
        readWordLeft := u.readWordLeft - 1
        readCurAddr := u.readCurAddr + 64 } reads got delivered := by
  obtain ⟨few, clients, addrs, data, left, received⟩ := inv
  have some : 0 < u.readWordLeft.toNat := more
  have split : u.readWordLeft.toNat = (u.readWordLeft - 1).toNat + 1 := by bv_omega
  rw [split, burstAddrs_succ] at addrs
  refine ⟨few, clients, ?_, ?_, ?_, received⟩
  · rw [addrs]
    simp
  · rw [List.map_append, data]
    simp
  · change (u.responses ++ [word]).length + (u.readWordLeft - 1).toNat = u.curReadCnt.toNat
    rw [List.length_append, List.length_singleton]
    omega

/-- A response goes to the queue, with the client of its burst. -/
theorem Inv.respond (inv : u.Inv rcnt reads got delivered) (busy : 0 < u.curReadCnt)
    {word : BitVec 512} {responses : List (BitVec 512)} (first : u.responses = word :: responses)
    : Inv rcnt { u with
        curReadCnt := u.curReadCnt - 1
        responses
        readerdQ := u.readerdQ ++ [(u.curClientIdx, word)] } reads got delivered
      ∧ outstanding { u with
          curReadCnt := u.curReadCnt - 1
          responses
          readerdQ := u.readerdQ ++ [(u.curClientIdx, word)] } = u.outstanding := by
  obtain ⟨few, clients, addrs, data, left, received⟩ := inv
  have some : 0 < u.curReadCnt.toNat := busy
  have split : u.curReadCnt.toNat = (u.curReadCnt - 1).toNat + 1 := by bv_omega
  rw [first] at data left
  refine ⟨⟨few, ?_, addrs, ?_, ?_, received⟩, ?_⟩
  · rw [clients, split, List.replicate_succ]
    simp
  · rw [data]
    simp
  · change responses.length + u.readWordLeft.toNat = (u.curReadCnt - 1).toNat
    rw [List.length_cons] at left
    omega
  · simp only [outstanding, List.length_append, List.length_singleton]
    omega

/-- The oldest word in the queue goes to its client. -/
theorem Inv.deliver (small : rcnt ≤ 256) (inv : u.Inv rcnt reads got delivered)
    {r : BitVec 8 × BitVec 512} {readerdQ : List (BitVec 8 × BitVec 512)}
    (first : u.readerdQ = r :: readerdQ)
    : Inv rcnt { u with
        readerdQ
        readerQs := Function.update u.readerQs r.1.toNat (u.readerQs r.1.toNat ++ [r.2]) } reads
        got (delivered ++ [r]) := by
  obtain ⟨few, clients, addrs, data, left, received⟩ := inv
  rw [first] at clients data
  refine ⟨few, ?_, addrs, ?_, left, ?_⟩
  · rw [clients]
    simp
  · rw [data]
    simp
  · intro i within
    obtain ⟨idx, word⟩ := r
    change got i ++ Function.update u.readerQs idx.toNat (u.readerQs idx.toNat ++ [word]) i = _
    rw [withLabel_snoc, ← received i within]
    by_cases mine : idx.toNat = i
    · subst mine
      rw [Function.update_self, BitVec.ofNat_toNat, BitVec.setWidth_eq, if_pos rfl,
        List.append_assoc]
    · have other : idx ≠ BitVec.ofNat 8 i := by
        rintro rfl
        apply mine
        rw [BitVec.toNat_ofNat, Nat.mod_eq_of_lt (by omega)]
      rw [Function.update_of_ne (Ne.symm mine), if_neg other]

/-- A client takes a word. -/
theorem Inv.take (inv : u.Inv rcnt reads got delivered) {i : Nat} {word : BitVec 512}
    {rest : List (BitVec 512)} (first : u.readerQs i = word :: rest)
    : Inv rcnt { u with readerQs := Function.update u.readerQs i rest } reads
        (Function.update got i (got i ++ [word])) delivered := by
  refine { inv with received := ?_ }
  intro j within
  have before := inv.received j within
  by_cases mine : j = i
  · subst mine
    change Function.update got j _ j ++ Function.update u.readerQs j rest j = _
    rw [Function.update_self, Function.update_self, ← before, first, List.append_assoc]
    rfl
  · change Function.update got i _ j ++ Function.update u.readerQs i rest j = _
    rw [Function.update_of_ne mine, Function.update_of_ne mine]
    exact before

end ReadSide

end BluespecPcie

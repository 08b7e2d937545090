import BluespecPcie.Dma.RingMemory
import BluespecPcie.Dma.WideUser
import Mathlib.Data.List.GetD

/-! The packets in `mkDMAWideCtrl`: each is stored in its slot of the ring, in order. -/

namespace BluespecPcie

open Bluespec

-----------------------------------------------------------------------------------------
-- Words of packets
-----------------------------------------------------------------------------------------

/-- Word `i` of the packets: the word of a packet, and behind it its index and header. -/
def packetWord (packets : List (BitVec 32 × BitVec 128)) (i : Nat) : DMAWord :=
  let packet := packets.getD (i / 2) (0, 0)
  if i % 2 = 0 then packet.2
  else DMAWideCtrl.indexWord (BitVec.ofNat 32 (i / 2)) packet.1

/-- The words of packets do not change with later packets. -/
theorem packetWord_append (packets more : List (BitVec 32 × BitVec 128)) {i : Nat}
    (inside : i / 2 < packets.length)
    : packetWord (packets ++ more) i = packetWord packets i := by
  rw [packetWord, packetWord, List.getD_append _ _ _ _ inside]

/-- The request for the slot of packet `k`. -/
def slotReq (k : Nat) : DMAReq := ⟨ringAddr 12 (2 * k), 2, 0⟩

/-- The slots follow each other and wrap behind the last. -/
theorem nextOffset (k : Nat)
    : (ringAddr 12 (2 * k) + 32) &&& 0xfff = ringAddr 12 (2 * (k + 1)) := by
  refine BitVec.eq_of_toNat_eq ?_
  have low : (0xfff : BitVec 32).toNat = 2 ^ 12 - 1 := rfl
  rw [BitVec.toNat_and, low, Nat.and_two_pow_sub_one_eq_mod, BitVec.toNat_add, ringAddr, ringAddr,
    BitVec.toNat_ofNat, BitVec.toNat_ofNat]
  change (16 * (2 * k) % 2 ^ 12 % 2 ^ 32 + 32) % 2 ^ 32 % 2 ^ 12 = _
  omega

/-- Slots lie in the ring. -/
theorem ringAddr_lt (i : Nat) : (ringAddr 12 i).toNat < 1024 * 4 := by
  rw [ringAddr, BitVec.toNat_ofNat]
  omega

/-- The rest of a list from a position on starts with the element there. -/
theorem drop_eq_cons {α : Type} {xs rest : List α} {k : Nat} {x : α}
    (here : xs.drop k = x :: rest)
    : k < xs.length ∧ xs[k]? = some x ∧ xs.drop (k + 1) = rest := by
  have inside : k < xs.length := by
    by_contra outside
    rw [List.drop_eq_nil_of_le (Nat.le_of_not_lt outside)] at here
    cases here
  rw [List.drop_eq_getElem_cons inside] at here
  obtain ⟨first, tail⟩ := List.cons.inj here
  exact ⟨inside, by rw [List.getElem?_eq_getElem inside, first], tail⟩

-----------------------------------------------------------------------------------------
-- The packets' side of the module
-----------------------------------------------------------------------------------------

/-- What packets go through: the words of the one under way, the requests in the merge, the
words made of them, and the packets that are not begun.
-/
structure PacketSide where
  underway : Nat
  merged : List DMAReq
  enqIdx : BitVec 32
  enqState : BitVec 2
  enqOffset : BitVec 32
  enqDataQ : List (BitVec 128)
  enqDmaWriteQ : List DMAWordTagged
  words : List (BitVec 128)
  heads : List (BitVec 32)

def DMAWideCtrl.packetSide (m : DMAWideCtrl) : PacketSide where
  underway := if m.dmaWriteSrc = 0 then 0 else m.dmaWriteCnt.toNat
  merged := withLabel 255 m.wm00.waiting
  enqIdx := m.enqIdx
  enqState := m.enqState
  enqOffset := m.enqOffset
  enqDataQ := m.enqDataQ.items
  enqDmaWriteQ := m.enqDmaWriteQ.items
  words := m.enq2Q.items ++ m.enqQ.items ++ m.enqcQ.items
  heads := m.enqh2Q.items ++ m.enqhQ.items ++ m.enqchQ.items

namespace PacketSide

/-- The number of packets begun, once `n` are made. -/
def begun (u : PacketSide) (n : Nat) : Nat := n + if u.enqState = 0 then 0 else 1

/-- The number of words made, once `n` packets are. -/
def made (u : PacketSide) (n : Nat) : Nat := 2 * n + if u.enqState = 2 then 1 else 0

/-- `n` packets are made and `c` requests for slots issued, and the words `sent` are stored. -/
structure Inv (P : TaggedDma) (u : PacketSide) (p : P.State)
    (packets : List (BitVec 32 × BitVec 128)) (n c : Nat) (sent : List DMAWord) : Prop where
  index : u.enqIdx = BitVec.ofNat 32 n
  states : u.enqState = 0 ∨ u.enqState = 1 ∨ u.enqState = 2
  inside : u.begun n ≤ packets.length
  words : (packets.map Prod.snd).drop (u.begun n) = u.words
  heads : (packets.map Prod.fst).drop n = u.heads
  data : u.enqDataQ = if u.enqState = 1 then [packetWord packets (2 * n)] else []
  offset : u.enqOffset = ringAddr 12 (2 * u.begun n)
  slots : (List.range c).map slotReq ++ u.merged = (List.range (u.begun n)).map slotReq
  stream
    : sent ++ u.enqDmaWriteQ.map DMAWordTagged.word
      = (List.range (u.made n)).map (packetWord packets)
  tags : ∀ d ∈ u.enqDmaWriteQ, d.tag = 0
  count : sent.length + u.underway = 2 * c
  small : u.underway ≤ 2
  next : 0 < u.underway → P.next p 0 = ringAddr 12 sent.length
  lacks : 0 < u.underway → P.lacks p 0 = u.underway
  stores : (P.stores p).filter inRing = Stores.placed (ringAddr 12) sent
  above : ∀ store ∈ P.stores p, inRing store = false → store.1.toNat + 16 ≤ 2 ^ 32

variable {P : TaggedDma} {u : PacketSide} {p p' : P.State}
  {packets : List (BitVec 32 × BitVec 128)} {n c : Nat} {sent : List DMAWord}

/-- After reset. -/
theorem Inv.init (P : TaggedDma) : Inv P mkDMAWideCtrl.packetSide P.init [] 0 0 [] := by
  refine ⟨rfl, .inl rfl, Nat.le_refl 0, rfl, rfl, rfl, rfl, rfl, rfl, nofun, rfl, Nat.zero_le 2,
    nofun, nofun, ?_, ?_⟩
  · rw [P.stores_init]
    rfl
  · rw [P.stores_init]
    exact nofun

/-- The packet behind those begun gets the next slot. -/
theorem Inv.start (inv : u.Inv P p packets n c sent) (idle : u.enqState = 0)
    {word : BitVec 128} {words : List (BitVec 128)} (first : u.words = word :: words)
    : Inv P { u with
        words
        enqDataQ := u.enqDataQ ++ [word]
        enqOffset := (u.enqOffset + 32) &&& 0xfff
        enqState := 1
        merged := u.merged ++ [⟨u.enqOffset, 2, 0⟩] } p packets n c sent := by
  obtain ⟨index, states, inside, order, heads, data, offset, slots, stream, tags, count, small,
    next, lacks, stores, above⟩ := inv
  have begun : u.begun n = n := by simp [PacketSide.begun, idle]
  rw [begun] at order offset slots
  rw [first] at order
  obtain ⟨more, here, rest⟩ := drop_eq_cons order
  rw [List.length_map] at more
  have mine : packetWord packets (2 * n) = word := by
    rw [List.getElem?_map, List.getElem?_eq_getElem more] at here
    have even : 2 * n / 2 = n := by omega
    simp only [packetWord, Nat.mul_mod_right, even, if_pos, List.getD_eq_getElem _ _ more]
    exact Option.some.inj here
  have made : u.made n = 2 * n := by simp [PacketSide.made, idle]
  refine ⟨index, .inr (.inl rfl), more, rest, heads, ?_, ?_, ?_, ?_, tags, count, small, next,
    lacks, stores, above⟩
  · rw [data, idle, mine]
    rfl
  · rw [offset]
    exact nextOffset n
  · change _ = (List.range (n + 1)).map slotReq
    rw [List.range_succ, List.map_append, ← slots, List.append_assoc, offset]
    rfl
  · rw [made] at stream
    exact stream

/-- The word of a packet goes first. -/
theorem Inv.sendEnqPacket (inv : u.Inv P p packets n c sent) (state : u.enqState = 1)
    {word : BitVec 128} {rest : List (BitVec 128)} (first : u.enqDataQ = word :: rest)
    : Inv P { u with
        enqState := 2
        enqDataQ := rest
        enqDmaWriteQ := u.enqDmaWriteQ ++ [⟨word, 0⟩] } p packets n c sent := by
  obtain ⟨index, states, inside, order, heads, data, offset, slots, stream, tags, count, small,
    next, lacks, stores, above⟩ := inv
  have begun : u.begun n = n + 1 := by simp [PacketSide.begun, state]
  have made : u.made n = 2 * n := by simp [PacketSide.made, state]
  rw [begun] at inside order offset slots
  rw [data, if_pos state] at first
  obtain ⟨rfl, rfl⟩ := List.cons.inj first
  refine ⟨index, .inr (.inr rfl), inside, order, heads, rfl, offset, slots, ?_, ?_, count, small,
    next, lacks, stores, above⟩
  · rw [made] at stream
    change _ = (List.range (2 * n + 1)).map (packetWord packets)
    rw [List.map_append, ← List.append_assoc, stream, List.range_succ, List.map_append]
    rfl
  · intro d member
    rcases List.mem_append.mp member with old | new
    · exact tags d old
    · rw [List.mem_singleton.mp new]

/-- Its index and its header go behind it, and the packet is made. -/
theorem Inv.sendEnqIdx (inv : u.Inv P p packets n c sent) (state : u.enqState = 2)
    {head : BitVec 32} {rest : List (BitVec 32)} (first : u.heads = head :: rest)
    : Inv P { u with
        heads := rest
        enqIdx := u.enqIdx + 1
        enqDmaWriteQ := u.enqDmaWriteQ ++ [⟨DMAWideCtrl.indexWord u.enqIdx head, 0⟩]
        enqState := 0 } p packets (n + 1) c sent := by
  obtain ⟨index, states, inside, order, heads, data, offset, slots, stream, tags, count, small,
    next, lacks, stores, above⟩ := inv
  have begun : u.begun n = n + 1 := by simp [PacketSide.begun, state]
  have made : u.made n = 2 * n + 1 := by simp [PacketSide.made, state]
  rw [begun] at inside order offset slots
  rw [first] at heads
  obtain ⟨more, here, behind⟩ := drop_eq_cons heads
  rw [List.length_map] at more
  have mine : packetWord packets (2 * n + 1) = DMAWideCtrl.indexWord u.enqIdx head := by
    rw [List.getElem?_map, List.getElem?_eq_getElem more] at here
    have half : (2 * n + 1) / 2 = n := by omega
    have odd : ¬ (2 * n + 1) % 2 = 0 := by omega
    simp only [packetWord, half, if_neg odd, List.getD_eq_getElem _ _ more, index]
    rw [Option.some.inj here]
  refine ⟨?_, .inl rfl, inside, order, behind, ?_, offset, slots, ?_, ?_, count, small, next, lacks,
    stores, above⟩
  · rw [index, BitVec.ofNat_add]
    rfl
  · rw [data, if_neg (by rw [state]; decide)]
    rfl
  · rw [made] at stream
    change _ = (List.range (2 * n + 1 + 1)).map (packetWord packets)
    rw [List.range_succ, List.map_append, List.map_append, ← List.append_assoc, stream,
      List.map_singleton, List.map_singleton, mine]
  · intro d member
    rcases List.mem_append.mp member with old | new
    · exact tags d old
    · rw [List.mem_singleton.mp new]

/-- The request for the next slot is issued. -/
theorem Inv.issue (inv : u.Inv P p packets n c sent) (idle : u.underway = 0)
    {cmd : DMAReq} {merged : List DMAReq} (first : u.merged = cmd :: merged)
    (accepted : P.accept p (some (.dmaWriteReq cmd.addr cmd.words cmd.tag)) = some p')
    : Inv P { u with underway := cmd.words.toNat, merged } p' packets n (c + 1) sent := by
  obtain ⟨index, states, inside, order, heads, data, offset, slots, stream, tags, count, small,
    next, lacks, stores, above⟩ := inv
  have here := slots
  rw [first] at here
  have within : c < u.begun n := by
    have total := congrArg List.length here
    simp only [List.length_append, List.length_map, List.length_range, List.length_cons] at total
    omega
  have mine : cmd = slotReq c := by
    have found := congrArg (fun reqs => reqs[c]?) here
    simp only [List.getElem?_map, List.getElem?_range within] at found
    rw [List.getElem?_append_right (by simp)] at found
    simpa using found
  subst mine
  obtain ⟨same, address, number⟩ := P.of_dmaWriteReq accepted
  rw [idle, Nat.add_zero] at count
  refine ⟨index, states, inside, order, heads, data, offset, ?_, stream, tags, ?_, Nat.le_refl 2,
    fun _ => ?_, fun _ => number, by rw [same]; exact stores, by rw [same]; exact above⟩
  · change _ = (List.range (u.begun n)).map slotReq
    rw [← here, List.range_succ, List.map_append, List.append_assoc]
    rfl
  · change sent.length + 2 = 2 * (c + 1)
    omega
  · rw [count]
    exact address

/-- A request of the user begins while no packet is under way. -/
theorem Inv.issue_user (inv : u.Inv P p packets n c sent) (idle : u.underway = 0) {cmd : DMAReq}
    (accepted : P.accept p (some (.dmaWriteReq cmd.addr cmd.words cmd.tag)) = some p')
    : Inv P u p' packets n c sent := by
  obtain ⟨same, _⟩ := P.of_dmaWriteReq accepted
  refine { inv with next := ?_, lacks := ?_, stores := ?_, above := ?_ }
  · intro busy
    omega
  · intro busy
    omega
  · rw [same]
    exact inv.stores
  · rw [same]
    exact inv.above

/-- A word of the packet under way is stored in its slot. -/
theorem Inv.send (inv : u.Inv P p packets n c sent) (busy : 0 < u.underway)
    {d : DMAWordTagged} {rest : List DMAWordTagged} (oldest : u.enqDmaWriteQ = d :: rest)
    (accepted : P.accept p (some (.dmaWriteData d.word d.tag)) = some p')
    : Inv P { u with underway := u.underway - 1, enqDmaWriteQ := rest } p' packets n c
        (sent ++ [d.word]) := by
  obtain ⟨index, states, inside, order, heads, data, offset, slots, stream, tags, count, small,
    next, lacks, stores, above⟩ := inv
  rw [oldest] at stream tags
  rw [tags d List.mem_cons_self] at accepted
  have number := lacks busy
  obtain ⟨more, address, fewer⟩ := P.of_dmaWriteData accepted (by rw [number]; exact busy)
  rw [next busy] at more address
  have mine : inRing (ringAddr 12 sent.length, d.word) = true :=
    decide_eq_true (ringAddr_lt sent.length)
  refine ⟨index, states, inside, order, heads, data, offset, slots, ?_,
    fun other member => tags other (List.mem_cons_of_mem _ member), ?_, ?_, ?_, ?_, ?_, ?_⟩
  · rw [List.append_assoc]
    exact stream
  · change (sent ++ [d.word]).length + (u.underway - 1) = 2 * c
    rw [List.length_append, List.length_singleton]
    omega
  · exact Nat.le_trans (Nat.sub_le _ _) small
  · intro rest
    change 0 < u.underway - 1 at rest
    rw [address, List.length_append, List.length_singleton]
    exact ringAddr_succ (by decide) (by omega)
  · intro _
    rw [fewer, number]
  · rw [more, List.filter_append, stores, Stores.placed_snoc, List.filter_cons_of_pos mine,
      List.filter_nil]
  · intro store member outside
    rw [more] at member
    rcases List.mem_append.mp member with old | new
    · exact above store old outside
    · rw [List.mem_singleton.mp new, mine] at outside
      cases outside

/-- A word of the user is stored above the ring. -/
theorem Inv.send_user (inv : u.Inv P p packets n c sent) (idle : u.underway = 0)
    {addr : BitVec 32} {word : DMAWord} (more : P.stores p' = P.stores p ++ [(addr, word)])
    (high : Above addr 1)
    : Inv P u p' packets n c sent := by
  obtain ⟨low, fits⟩ := high Nat.one_pos
  have other : inRing (addr, word) = false := decide_eq_false (Nat.not_lt.mpr low)
  refine { inv with next := ?_, lacks := ?_, stores := ?_, above := ?_ }
  · intro busy
    omega
  · intro busy
    omega
  · rw [more, List.filter_append, inv.stores,
      List.filter_cons_of_neg (by rw [other]; exact Bool.false_ne_true), List.filter_nil,
      List.append_nil]
  · intro store member outside
    rw [more] at member
    rcases List.mem_append.mp member with old | new
    · exact inv.above store old outside
    · rw [List.mem_singleton.mp new]
      exact fits

/-- A step of the interface. -/
theorem Inv.pcie (inv : u.Inv P p packets n c sent) (moved : P.internal p = some p')
    : u.Inv P p' packets n c sent := by
  obtain ⟨stores, next, lacks⟩ := P.of_internal moved
  refine { inv with next := ?_, lacks := ?_, stores := ?_, above := ?_ }
  · rw [next]
    exact inv.next
  · rw [lacks]
    exact inv.lacks
  · rw [stores]
    exact inv.stores
  · rw [stores]
    exact inv.above

/-- A packet is enqueued behind the others. -/
theorem Inv.enq (inv : u.Inv P p packets n c sent) (head : BitVec 32) (word : BitVec 128)
    : Inv P { u with words := u.words ++ [word], heads := u.heads ++ [head] } p
        (packets ++ [(head, word)]) n c sent := by
  obtain ⟨index, states, inside, order, heads, data, offset, slots, stream, tags, count, small,
    next, lacks, stores, above⟩ := inv
  have fewer : n ≤ packets.length := Nat.le_trans (Nat.le_add_right _ _) inside
  refine ⟨index, states, ?_, ?_, ?_, ?_, offset, slots, ?_, tags, count, small, next, lacks,
    stores, above⟩
  · change u.begun n ≤ _
    rw [List.length_append]
    omega
  · change (List.map _ _).drop (u.begun n) = _
    rw [List.map_append, List.drop_append_of_le_length (by rw [List.length_map]; exact inside),
      order]
    rfl
  · rw [List.map_append, List.drop_append_of_le_length (by rw [List.length_map]; exact fewer),
      heads]
    rfl
  · rw [data]
    change _ = if u.enqState = 1 then _ else _
    split
    next state =>
      have begun : u.begun n = n + 1 := by simp [PacketSide.begun, state]
      rw [packetWord_append _ _ (by omega)]
    next => rfl
  · rw [stream]
    refine List.map_congr_left ?_
    intro i member
    refine (packetWord_append _ _ ?_).symm
    have below : i < u.made n := List.mem_range.mp member
    simp only [PacketSide.made, PacketSide.begun] at below inside
    rcases states with state | state | state <;> rw [state] at below inside <;>
      simp at below inside <;> omega

end PacketSide

end BluespecPcie

import BluespecPcie.Dma.HostCounts
import BluespecPcie.Dma.PacketSlots
import BluespecPcie.Dma.WideRules

/-! The packet ring: `recvWord` returns the packets in the order in which they are enqueued. -/

namespace BluespecPcie

open Bluespec

-----------------------------------------------------------------------------------------
-- The host
-----------------------------------------------------------------------------------------

/-- The host has received `received` packets, those that `recvWord` returned and the ones in
`recvList`; what `scanReceive` took of a slot so far is of the next packet.
-/
structure Receiver (h : DMASplitter) (log : PacketLog) (received landed : Nat) : Prop where
  index : h.nextrecvidx = BitVec.ofNat 32 received
  list
    : log.returned ++ h.recvList.reverse.map PCIeWord.packet = log.enqueued.take received
  taken
    : ∀ l fields,
        h.scan = some l
        → l.taken = some fields
        → received < landed
          ∧ h.u32off l.i = 8 * (received % 128)
          ∧ ∃ r ≤ 5, fields = (List.range r).map (packetField log.enqueued received)

namespace Receiver

variable {h h' : DMASplitter} {log : PacketLog} {received landed : Nat}

theorem init : Receiver ⟨0, 0, [], none⟩ {} 0 0 := ⟨rfl, rfl, nofun⟩

/-- Packets land behind those that are received. -/
theorem land (receiver : Receiver h log received landed)
    : Receiver h log received (landed + 1) := by
  obtain ⟨index, list, taken⟩ := receiver
  refine ⟨index, list, ?_⟩
  intro l fields scanning reading
  obtain ⟨inside, rest⟩ := taken l fields scanning reading
  exact ⟨Nat.lt_succ_of_lt inside, rest⟩

/-- A packet is enqueued behind those that have landed. -/
theorem enq (receiver : Receiver h log received landed) (behind : received ≤ landed)
    (inside : landed ≤ log.enqueued.length) (packet : BitVec 32 × BitVec 128)
    : Receiver h { log with enqueued := log.enqueued ++ [packet] } received landed := by
  obtain ⟨index, list, taken⟩ := receiver
  refine ⟨index, ?_, ?_⟩
  · rw [list, List.take_append_of_le_length (Nat.le_trans behind inside)]
  · intro l fields scanning reading
    obtain ⟨more, place, r, few, same⟩ := taken l fields scanning reading
    refine ⟨more, place, r, few, ?_⟩
    rw [same]
    refine List.map_congr_left ?_
    intro f member
    have field : f < r := List.mem_range.mp member
    rw [packetField, packetField, packetWord_append _ _ (by omega)]

/-- A call of `scanReceive` begins. -/
theorem scanReceive (receiver : Receiver h log received landed)
    (fires : h.scanReceive = some h')
    : Receiver h' log received landed := by
  unfold DMASplitter.scanReceive at fires
  split at fires
  next =>
    cases fires
    refine ⟨receiver.index, receiver.list, ?_⟩
    rintro l fields ⟨⟩ ⟨⟩
  next => cases fires

/-- The first word of `recvList` is returned. -/
theorem recvWord (receiver : Receiver h log received landed) {w : PCIeWord}
    (fires : h.recvWord = some (w, h'))
    : Receiver h' { log with returned := log.returned ++ [w.packet] } received landed := by
  unfold DMASplitter.recvWord at fires
  split at fires
  next => cases fires
  next =>
    obtain ⟨last, oldest, ⟨⟩⟩ := Option.map_eq_some_iff.mp fires
    obtain ⟨index, list, taken⟩ := receiver
    refine ⟨index, ?_, taken⟩
    have whole : h.recvList = h.recvList.dropLast ++ [w] :=
      (List.dropLast_append_getLast? w oldest).symm
    rw [← list, List.append_assoc]
    conv_rhs => rw [whole, List.reverse_append]
    rfl

/-- What the end of a scan leaves: the index that goes to the device is that of the packets
received.
-/
theorem scanEnd (receiver : Receiver h log received landed) (l : ScanLocals)
    : Receiver (h.scanEnd l).1 log received landed
      ∧ ((h.scanEnd l).2 = [] ∨ (h.scanEnd l).2 = [⟨16 * 4, BitVec.ofNat 32 received⟩]) := by
  refine ⟨⟨receiver.index, receiver.list, nofun⟩, ?_⟩
  rw [DMASplitter.scanEnd, receiver.index]
  split
  · exact .inr rfl
  · exact .inl rfl

/-- A step of a scan: a slot matches only as that of the next packet, and what is read of it is
that packet.
-/
theorem scanStep (receiver : Receiver h log received landed) (behind : received ≤ landed)
    (ahead : landed ≤ received + 128) (inside : landed ≤ log.enqueued.length)
    (mem : HostMemory) {writes : List IOWrite}
    (fires
      : h.scanStep (storeWords (constructed mem)
          (Stores.placed (ringAddr 12) (packetWords log.enqueued landed))) = some (h', writes))
    : ∃ received',
        received ≤ received'
        ∧ received' ≤ landed
        ∧ Receiver h' log received' landed
        ∧ (writes = [] ∨ writes = [⟨16 * 4, BitVec.ofNat 32 received'⟩]) := by
  unfold DMASplitter.scanStep at fires
  split at fires
  next => cases fires
  next l scanning =>
    split at fires
    next fields reading =>
      obtain ⟨more, place, r, few, same⟩ := receiver.taken l fields scanning reading
      have length : fields.length = r := by simp [same]
      split at fires
      next short =>
        cases fires
        refine ⟨received, Nat.le_refl _, behind, ⟨receiver.index, receiver.list, ?_⟩, .inl rfl⟩
        rintro l' fields' ⟨⟩ ⟨⟩
        refine ⟨more, place, r + 1, by omega, ?_⟩
        rw [place, length, slot_field _ _ more ahead (by omega), List.range_succ, List.map_append,
          ← same]
        rfl
      next full =>
        cases fires
        have five : r = 5 := by omega
        rw [five] at same
        have within : received < log.enqueued.length := Nat.lt_of_lt_of_le more inside
        refine ⟨received + 1, Nat.le_succ _, more, ⟨?_, ?_, ?_⟩, .inl rfl⟩
        · rw [receiver.index, BitVec.ofNat_add]
          rfl
        · have next : log.enqueued.take (received + 1)
              = log.enqueued.take received ++ [log.enqueued[received]] := by
            rw [List.take_add_one, List.getElem?_eq_getElem within]
            rfl
          rw [List.reverse_cons, List.map_append, ← List.append_assoc, receiver.list, next,
            List.map_singleton, packet_fields _ within same]
        · rintro l' fields' ⟨⟩ ⟨⟩
    next reading =>
      split at fires
      next =>
        split at fires
        next found =>
          cases fires
          have slot : h.u32off l.i
              = 8 * ((BitVec.ofNat 32 l.i + h.nextrecvoff).toNat % 128) := by
            rw [DMASplitter.u32off]
            omega
          rw [receiver.index, slot] at found
          obtain ⟨here, more⟩ := slot_match mem log.enqueued behind ahead
            (Nat.mod_lt _ (by decide)) found
          refine ⟨received, Nat.le_refl _, behind, ⟨receiver.index, receiver.list, ?_⟩, .inl rfl⟩
          rintro l' fields' ⟨⟩ ⟨⟩
          refine ⟨more, ?_, 0, by decide, rfl⟩
          rw [← here]
          exact slot
        next =>
          split at fires
          next =>
            cases fires
            exact ⟨received, Nat.le_refl _, behind, receiver.scanEnd l⟩
          next =>
            cases fires
            refine ⟨received, Nat.le_refl _, behind, ⟨receiver.index, receiver.list, ?_⟩,
              .inl rfl⟩
            rintro l' fields ⟨⟩ taken
            rw [reading] at taken
            cases taken
      next =>
        cases fires
        exact ⟨received, Nat.le_refl _, behind, receiver.scanEnd l⟩

end Receiver

-----------------------------------------------------------------------------------------
-- Runs
-----------------------------------------------------------------------------------------

namespace PacketLog

/-- The writes of the host that the module has not processed. -/
def unprocessed {P : TaggedDma} (s : PacketSystem P) : List IOWrite :=
  s.ctrl.userWrite1Q.items ++ s.io

/-- The invariant of a run. -/
structure Inv (P : TaggedDma) (s : PacketSystem P) (log : PacketLog) (n c : Nat)
    (sent : List DMAWord) (received seen : Nat) (acks : List Nat) : Prop where
  carried : Carried P s.ctrl s.pcie log n c sent
  counts : HostCounts 16 s.ctrl.enqReceivedIdx (unprocessed s) received seen acks
  quiet : ∀ d ∈ unprocessed s, d.toffset ≠ 17
  -- a packet is begun only while its slot holds a packet that is received
  room : s.ctrl.packetSide.begun n ≤ seen + 128
  landed : 2 * s.landed ≤ sent.length
  behind : received ≤ s.landed
  receiver : Receiver s.splitter log received s.landed

variable {P : TaggedDma} {s s' : PacketSystem P} {log : PacketLog} {n c : Nat}
  {sent : List DMAWord} {received seen : Nat} {acks : List Nat}

theorem Inv.init (P : TaggedDma) : Inv P (PacketSystem.init P) {} 0 0 [] 0 0 [] :=
  ⟨.init P, .init 16, nofun, Nat.zero_le _, Nat.le_refl 0, Nat.le_refl 0, .init⟩

/-- Packets that have landed are made, and their slots are not taken again. -/
theorem Inv.near (inv : Inv P s log n c sent received seen acks)
    : s.landed ≤ n ∧ s.landed ≤ log.enqueued.length ∧ s.landed ≤ received + 128 := by
  obtain ⟨carried, counts, quiet, room, landed, behind, receiver⟩ := inv
  have stream := congrArg List.length carried.packets.stream
  rw [List.length_append, List.length_map, List.length_map, List.length_range, PacketSide.made]
    at stream
  have inside := carried.packets.inside
  have seenLe := counts.seen_le
  rw [PacketSide.begun] at inside room
  have made : s.landed ≤ n := by
    split at stream <;> omega
  exact ⟨made, by omega, by omega⟩

/-- The ring as the host sees it holds the packets that have landed. -/
theorem Inv.memory (inv : Inv P s log n c sent received seen acks) (mem : HostMemory)
    : s.memory mem
      = storeWords (constructed mem)
          (Stores.placed (ringAddr 12) (packetWords log.enqueued s.landed)) := by
  have stream := congrArg (List.take (2 * s.landed)) inv.carried.packets.stream
  have made : s.landed ≤ n := inv.near.1
  rw [List.take_append_of_le_length inv.landed, ← List.map_take, List.take_range] at stream
  have fewer : min (2 * s.landed) (s.ctrl.packetSide.made n) = 2 * s.landed := by
    rw [PacketSide.made]
    omega
  rw [fewer] at stream
  rw [PacketSystem.memory, PacketSystem.ringStores, inv.carried.packets.stores,
    Stores.take_placed, stream]
  rfl

/-- Steps of the module keep the invariant. -/
theorem Inv.advance (inv : Inv P s log n c sent received seen acks) {ctrl : DMAWideCtrl}
    {pcie : P.State} {log' : PacketLog} {n' c' : Nat} {sent' : List DMAWord}
    (carried : Carried P ctrl pcie log' n' c' sent')
    (advances : Advances s.ctrl ctrl n n' sent sent')
    (receiver : Receiver s.splitter log' received s.landed)
    : Inv P { s with ctrl, pcie } log' n' c' sent' received seen acks := by
  have near := inv.near
  have index := inv.carried.packets.index
  obtain ⟨_, counts, quiet, room, landed, behind, _⟩ := inv
  obtain ⟨host, stored, begun⟩ := advances
  obtain ⟨count, writes⟩ := Prod.mk.injEq .. ▸ host
  have same : unprocessed { s with ctrl, pcie } = unprocessed s := by
    rw [unprocessed, unprocessed, writes]
  refine ⟨carried, ?_, ?_, ?_, Nat.le_trans landed stored, behind, receiver⟩
  · rw [same, count]
    exact counts
  · rw [same]
    exact quiet
  · rcases begun with kept | ⟨next, free⟩
    · exact Nat.le_trans kept room
    · change ctrl.packetSide.begun n' ≤ seen + 128
      have seenLe := counts.seen_le
      rw [PacketSide.begun] at room
      have apart : (s.ctrl.enqIdx - s.ctrl.enqReceivedIdx).toNat = n - seen := by
        rw [counts.last, show s.ctrl.enqIdx = BitVec.ofNat 32 n from index]
        exact count_between (by omega) (by omega)
      have less : (s.ctrl.enqIdx - s.ctrl.enqReceivedIdx).toNat < 128 := free
      omega

/-- The oldest write of the host is received. -/
theorem Inv.getWriteReq (inv : Inv P s log n c sent received seen acks)
    (fires : s.getWriteReq = some s')
    : Inv P s' log n c sent received seen acks := by
  unfold PacketSystem.getWriteReq at fires
  split at fires
  next => cases fires
  next d io sentWrites =>
    obtain ⟨ctrl, got, ⟨⟩⟩ := Option.map_eq_some_iff.mp fires
    obtain ⟨userWrite1Q, put, ⟨⟩⟩ := Option.bind_eq_some_iff.mp got
    obtain ⟨⟨labelled, user, packets⟩, counts, quiet, room, landed, behind, receiver⟩ := inv
    have same : unprocessed { s with ctrl := { s.ctrl with userWrite1Q }, io }
        = unprocessed s := by
      rw [unprocessed, unprocessed, (Fifo.enq_eq_some.mp put).2, sentWrites, List.append_assoc]
      rfl
    refine ⟨⟨labelled, user, packets⟩, ?_, ?_, room, landed, behind, receiver⟩
    · rw [same]
      exact counts
    · rw [same]
      exact quiet

/-- A write of the host is processed. -/
theorem Inv.procFC (inv : Inv P s log n c sent received seen acks) {ctrl : DMAWideCtrl}
    (fires : s.ctrl.procFC = some ctrl)
    : ∃ seen' acks', Inv P { s with ctrl } log n c sent received seen' acks' := by
  obtain ⟨carried, counts, quiet, room, landed, behind, receiver⟩ := inv
  obtain ⟨d, oldest, count, state, carried'⟩ := carried.procFC
    (fun d member => quiet d (List.mem_append_left _ member)) fires
  rw [unprocessed, oldest, List.cons_append] at counts
  obtain ⟨seen', acks', counts', later⟩ := counts.process
  refine ⟨seen', acks', carried', ?_, ?_, ?_, landed, behind, receiver⟩
  · rw [count]
    exact counts'
  · intro other member
    refine quiet other ?_
    rw [unprocessed, oldest]
    exact List.mem_cons_of_mem _ member
  · change n + (if ctrl.enqState = 0 then 0 else 1) ≤ _
    rw [state]
    exact Nat.le_trans room (Nat.add_le_add_right later _)

/-- A step of `scanReceive`. -/
theorem Inv.scanStep (inv : Inv P s log n c sent received seen acks) (mem : HostMemory)
    {splitter : DMASplitter} {writes : List IOWrite}
    (fires : s.splitter.scanStep (s.memory mem) = some (splitter, writes))
    : ∃ received' acks',
        Inv P { s with splitter, io := s.io ++ writes } log n c sent received' seen acks' := by
  obtain ⟨_, inside, ahead⟩ := inv.near
  rw [inv.memory] at fires
  obtain ⟨carried, counts, quiet, room, landed, behind, receiver⟩ := inv
  obtain ⟨received', more, behind', receiver', written⟩ :=
    receiver.scanStep behind ahead inside mem fires
  rcases written with rfl | rfl
  · refine ⟨received', acks, carried, ?_, ?_, room, landed, behind', receiver'⟩
    · rw [unprocessed, List.append_nil]
      exact counts.later more
    · rw [unprocessed, List.append_nil]
      exact quiet
  · have word : (IOWrite.mk (16 * 4) (BitVec.ofNat 32 received')).toffset = 16 := by
      change ((16 * 4 : BitVec 20) >>> 2).setWidth 8 = (16 : BitVec 8)
      decide
    refine ⟨received', acks ++ [received'], carried, ?_, ?_, room, landed, behind', receiver'⟩
    · rw [unprocessed, ← List.append_assoc]
      exact (counts.later more).send word rfl
    · intro d member
      rw [unprocessed, ← List.append_assoc] at member
      rcases List.mem_append.mp member with old | new
      · exact quiet d old
      · rw [List.mem_singleton.mp new, word]
        decide

/-- Every event keeps the invariant. -/
theorem Inv.step {e : PacketEvent} {mem : HostMemory}
    (inv : Inv P s log n c sent received seen acks) (proper : Proper (s, log) e)
    (fires : s.step mem e = some s')
    : ∃ n' c' sent' received' seen' acks',
        Inv P s' (record s e log) n' c' sent' received' seen' acks' := by
  have carried := inv.carried
  cases e with
  | getWriteReq => exact ⟨n, c, sent, received, seen, acks, inv.getWriteReq fires⟩
  | rule rule =>
      obtain ⟨⟨ctrl, call⟩, fired, fires⟩ := Option.bind_eq_some_iff.mp fires
      obtain ⟨pcie, accepted, ⟨⟩⟩ := Option.bind_eq_some_iff.mp fires
      by_cases host : rule = .procFC
      · subst host
        obtain ⟨_, processed, ⟨⟩⟩ := Option.map_eq_some_iff.mp fired
        cases accepted
        obtain ⟨seen', acks', after⟩ := inv.procFC processed
        exact ⟨n, c, sent, received, seen', acks', after⟩
      · obtain ⟨n', c', sent', after, advances⟩ := carried.fire host fired accepted
        exact ⟨n', c', sent', received, seen, acks, inv.advance after advances inv.receiver⟩
  | pcie =>
      obtain ⟨pcie, moved, ⟨⟩⟩ := Option.map_eq_some_iff.mp fires
      exact ⟨n, c, sent, received, seen, acks,
        inv.advance (carried.pcie moved) (.same rfl rfl) inv.receiver⟩
  | land =>
      simp only [PacketSystem.step] at fires
      split at fires
      next more =>
        cases fires
        rw [PacketSystem.ringStores, carried.packets.stores, Stores.length_placed] at more
        obtain ⟨_, counts, quiet, room, landed, behind, receiver⟩ := inv
        exact ⟨n, c, sent, received, seen, acks, carried, counts, quiet, room, more,
          Nat.le_succ_of_le behind, receiver.land⟩
      next => cases fires
  | enq head word =>
      obtain ⟨ctrl, put, ⟨⟩⟩ := Option.map_eq_some_iff.mp fires
      obtain ⟨after, advances⟩ := carried.enq put
      exact ⟨n, c, sent, received, seen, acks, inv.advance after advances
        (inv.receiver.enq inv.behind inv.near.2.1 (head, word))⟩
  | deq =>
      obtain ⟨⟨first, ctrl⟩, taken, ⟨⟩⟩ := Option.map_eq_some_iff.mp fires
      obtain ⟨after, advances⟩ := carried.deq taken
      exact ⟨n, c, sent, received, seen, acks, inv.advance after advances inv.receiver⟩
  | dmaWriteReq addr words tag =>
      obtain ⟨ctrl, asked, ⟨⟩⟩ := Option.map_eq_some_iff.mp fires
      obtain ⟨after, advances⟩ := carried.dmaWriteReq proper.1 proper.2 asked
      exact ⟨n, c, sent, received, seen, acks, inv.advance after advances
        ⟨inv.receiver.index, inv.receiver.list, inv.receiver.taken⟩⟩
  | dmaWriteData data tag =>
      obtain ⟨ctrl, supplied, ⟨⟩⟩ := Option.map_eq_some_iff.mp fires
      obtain ⟨after, advances⟩ := carried.dmaWriteData proper supplied
      exact ⟨n, c, sent, received, seen, acks, inv.advance after advances
        ⟨inv.receiver.index, inv.receiver.list, inv.receiver.taken⟩⟩
  | writeWord addr data =>
      cases fires
      obtain ⟨_, counts, quiet, room, landed, behind, receiver⟩ := inv
      refine ⟨n, c, sent, received, seen, acks, carried, ?_, ?_, room, landed, behind, receiver⟩
      · rw [unprocessed, ← List.append_assoc]
        exact counts.other proper.1
      · intro d member
        rw [unprocessed, ← List.append_assoc] at member
        rcases List.mem_append.mp member with old | new
        · exact quiet d old
        · rw [List.mem_singleton.mp new]
          exact proper.2
  | scanReceive =>
      obtain ⟨splitter, called, ⟨⟩⟩ := Option.map_eq_some_iff.mp fires
      obtain ⟨_, counts, quiet, room, landed, behind, receiver⟩ := inv
      exact ⟨n, c, sent, received, seen, acks, carried, counts, quiet, room, landed, behind,
        receiver.scanReceive called⟩
  | scanStep =>
      obtain ⟨⟨splitter, writes⟩, stepped, ⟨⟩⟩ := Option.map_eq_some_iff.mp fires
      obtain ⟨received', acks', after⟩ := inv.scanStep mem stepped
      exact ⟨n, c, sent, received', seen, acks', after⟩
  | recvWord =>
      obtain ⟨⟨w, splitter⟩, called, ⟨⟩⟩ := Option.map_eq_some_iff.mp fires
      obtain ⟨⟨labelled, user, packets⟩, counts, quiet, room, landed, behind, receiver⟩ := inv
      refine ⟨n, c, sent, received, seen, acks, ⟨labelled, user, packets⟩, counts, quiet, room,
        landed, behind, ?_⟩
      rw [record, called]
      exact receiver.recvWord called

instance decidableProper {P : TaggedDma} (s : PacketSystem P × PacketLog) (e : PacketEvent)
    : Decidable (Proper s e) := by
  unfold Proper Matched
  split <;> infer_instance

end PacketLog

/-- In every run the packets that `recvWord` returned are the first ones enqueued, and what else
is stored lies behind the ring.
-/
theorem packetRing_prefix (P : TaggedDma) (mem : HostMemory) (s : PacketSystem P)
    (log : PacketLog)
    (reach : Reach (traced (PacketSystem.step mem) PacketLog.record) PacketLog.Proper
      (PacketSystem.init P, {}) (s, log))
    : log.returned <+: log.enqueued
      ∧ ∀ store ∈ P.stores s.pcie, inRing store = false → store.1.toNat + 16 ≤ 2 ^ 32 := by
  have inv : ∃ n c sent received seen acks, log.Inv P s n c sent received seen acks := by
    refine reach.invariant (P := fun s => ∃ n c sent received seen acks,
      s.2.Inv P s.1 n c sent received seen acks) ⟨0, 0, [], 0, 0, [], .init P⟩ ?_
    rintro s e s' ⟨n, c, sent, received, seen, acks, inv⟩ proper fires
    obtain ⟨fired, recorded⟩ := traced_eq_some.mp fires
    rw [recorded]
    exact inv.step proper fired
  obtain ⟨n, c, sent, received, seen, acks, inv⟩ := inv
  refine ⟨?_, inv.carried.packets.above⟩
  exact (List.prefix_append _ _).trans
    (inv.receiver.list ▸ List.take_prefix received log.enqueued)

namespace PacketLog

/-- A packet goes to the host. -/
def deliver (head : BitVec 32) (word : BitVec 128) : List PacketEvent :=
  [.enq head word, .rule .relayEnqPacket, .rule .relayEnqPacketC, .rule .startEnqPacket,
    .rule .merge, .rule .issuedmaWrite, .rule .sendEnqPacket, .rule .sendEnqIdx,
    .rule .senddmaWriteData, .rule .senddmaWriteData, .land]

/-- A user DMA write of one wide word; the module waits for two. -/
def userWrite : List PacketEvent :=
  [.dmaWriteReq 0 1 5, .dmaWriteData 7 5, .dmaWriteData 8 5, .rule .relayDmaWriteQ,
    .rule .relayDmaWriteQ, .rule .startDivideWriteReq, .rule .relaydmawrqsync,
    .rule .relaydmawrq, .rule .merge, .rule .issuedmaWrite, .rule .senddmaWriteData,
    .rule .senddmaWriteData]

end PacketLog

/-- Two packets and a user's write between them; one scan finds both. -/
theorem packetRing_prefix_two
    : ∃ s log,
        Reach (traced (PacketSystem.step (fun _ => 0)) PacketLog.record) PacketLog.Proper
          (PacketSystem.init TaggedDma.direct, {}) (s, log)
        ∧ (log.enqueued, log.returned) = ([(1, 10), (2, 20)], [(1, 10), (2, 20)])
        ∧ log.returned <+: log.enqueued
        ∧ ∀ store ∈ TaggedDma.direct.stores s.pcie, inRing store = false
          → store.1.toNat + 16 ≤ 2 ^ 32 := by
  obtain ⟨⟨s, log⟩, run, seen⟩ := exec_reach_map
    (traced (PacketSystem.step (fun _ => 0)) PacketLog.record) PacketLog.Proper
    (PacketSystem.init TaggedDma.direct, {})
    (PacketLog.deliver 1 10 ++ PacketLog.userWrite ++ PacketLog.deliver 2 20
      ++ .scanReceive :: List.replicate 15 .scanStep ++ [.recvWord, .recvWord])
    (fun s => (s.2.enqueued, s.2.returned)) ([(1, 10), (2, 20)], [(1, 10), (2, 20)])
    (by decide +kernel)
  exact ⟨s, log, run, seen, packetRing_prefix TaggedDma.direct (fun _ => 0) s log run⟩

end BluespecPcie

import BluespecPcie.PcieCtrl.Bursts
import BluespecPcie.PcieCtrl.Frames

/-! Page table lookups, which reads and writes share: no bus address is lost or crossed over. -/

namespace BluespecPcie

open Bluespec

-----------------------------------------------------------------------------------------
-- Engine addresses and bus addresses
-----------------------------------------------------------------------------------------

/-- The bus address of an engine address, with the bus addresses `pt` of its 4 KB pages. -/
def busAddr (pt : BitVec 32 → BitVec 32) (addr : BitVec 32) : BitVec 32 :=
  pt (addr >>> 12) + (addr.extractLsb 11 0).zeroExtend 32

/-- Inside one page, words that follow one another do so on the bus. -/
theorem map_busAddr_wordAddrs (pt : BitVec 32 → BitVec 32) {startAddr : BitVec 32} {n : Nat}
    (inPage : startAddr.toNat % 4096 + 16 * n ≤ 4096)
    : (wordAddrs startAddr n).map (busAddr pt) = wordAddrs (busAddr pt startAddr) n := by
  simp only [wordAddrs, List.map_map]
  apply List.map_congr_left
  intro j member
  have below : j < n := List.mem_range.mp member
  have bound := startAddr.isLt
  have page : (startAddr + BitVec.ofNat 32 (16 * j)) >>> 12 = startAddr >>> 12 := by
    apply BitVec.eq_of_toNat_eq
    simp only [BitVec.toNat_ushiftRight, BitVec.toNat_add, BitVec.toNat_ofNat,
      Nat.shiftRight_eq_div_pow]
    omega
  have offset : ((startAddr + BitVec.ofNat 32 (16 * j)).extractLsb 11 0).zeroExtend 32
      = (startAddr.extractLsb 11 0).zeroExtend 32 + BitVec.ofNat 32 (16 * j) := by
    apply BitVec.eq_of_toNat_eq
    simp only [BitVec.toNat_add, BitVec.zeroExtend_eq_setWidth, BitVec.toNat_setWidth,
      BitVec.extractLsb_toNat, BitVec.toNat_ofNat, Nat.shiftRight_zero]
    omega
  simp only [Function.comp_apply, busAddr, page, offset]
  grind

-----------------------------------------------------------------------------------------
-- Bus addresses on their way to the TLP generators
-----------------------------------------------------------------------------------------

namespace PageTable

/-- The queue of bus addresses for one direction, writes or reads. -/
def bufAddrs (t : PageTable) (write : Bool) : List (BitVec 32) :=
  if write then t.dmaWriteBufAddrQ.items else t.dmaReadBufAddrQ.items

/-- The bus addresses looked up for one direction and not used yet, oldest first. -/
def busAddrs (t : PageTable) (write : Bool) : List (BitVec 32) :=
  t.bufAddrs write
    ++ ((t.bufidxRequestedWriteQ.items.zip t.configBuffer.respB.items).filter
      (fun lookup => lookup.1 = write)).map Prod.snd

/-- Every lookup under way has its direction queued. -/
def LookupsPaired (t : PageTable) : Prop :=
  t.bufidxRequestedWriteQ.items.length = t.configBuffer.respB.items.length

variable {t u : PageTable}

/-- A lookup adds its bus address for its direction and none for the other. -/
theorem busAddrs_lookup (paired : t.LookupsPaired) {m : Bool} {v : BitVec 32}
    (direction : u.bufidxRequestedWriteQ.items = t.bufidxRequestedWriteQ.items ++ [m])
    (response : u.configBuffer.respB.items = t.configBuffer.respB.items ++ [v])
    (addrs : ∀ write, u.bufAddrs write = t.bufAddrs write)
    : u.LookupsPaired
      ∧ ∀ write, u.busAddrs write = t.busAddrs write ++ if m = write then [v] else [] := by
  constructor
  · rw [LookupsPaired, direction, response, List.length_append, List.length_append, paired]
    rfl
  · intro write
    simp only [busAddrs, direction, response, addrs, List.zip_append paired,
      List.filter_append, List.map_append, List.append_assoc]
    by_cases same : m = write
    · simp [same]
    · simp [same]

/-- Using a queued bus address takes the oldest of its direction. -/
theorem busAddrs_use {m : Bool} {v : BitVec 32}
    (direction : u.bufidxRequestedWriteQ = t.bufidxRequestedWriteQ)
    (response : u.configBuffer.respB = t.configBuffer.respB)
    (taken : t.bufAddrs m = v :: u.bufAddrs m)
    (others : u.bufAddrs (!m) = t.bufAddrs (!m)) (write : Bool)
    : t.busAddrs write = (if m = write then [v] else []) ++ u.busAddrs write := by
  simp only [busAddrs, direction, response]
  by_cases same : m = write
  · subst same
    simp [taken]
  · have other : write = !m := by
      cases m <;> cases write <;> simp_all
    rw [if_neg same, other, others, List.nil_append]

end PageTable

namespace PcieCtrl

/-- The bus address an event looks up for a direction. -/
def lookedUp (s : PcieCtrl) (write : Bool) : Event → List (BitVec 32)
  | .splitDmaReadReq2 =>
      if write then [] else [s.pages.configBuffer.mem (pageEntry s.reads.dmaReadStartAddr)]
  | .splitDmaWriteReq2 =>
      if write then [s.pages.configBuffer.mem (pageEntry s.writes.dmaStartAddr)] else []
  | _ => []

/-- The bus address an event uses for a direction. -/
def busUsed (s : PcieCtrl) (write : Bool) : Event → List (BitVec 32)
  | .generateDmaReadTLP => if write then [] else (s.pages.bufAddrs false).head?.toList
  | .generateHeaderTLP => if write then (s.pages.bufAddrs true).head?.toList else []
  | _ => []

end PcieCtrl

open PageTable in
open PcieCtrl in
/-- Every event keeps the bus addresses under way, but for those it looks up or uses. -/
theorem busAddrs_step {s s' : PcieCtrl} {e : Event} (paired : s.pages.LookupsPaired)
    (fires : s.step e = some s')
    : s'.pages.LookupsPaired
      ∧ ∀ write,
          s.pages.busAddrs write ++ s.lookedUp write e
            = s.busUsed write e ++ s'.pages.busAddrs write := by
  have frame := (step_unchanged fires).pages
  cases e
  case procTLP =>
    obtain ⟨_, _, _, _, ⟨_, _, _, _, _, _, rfl⟩ | ⟨_, _, _, _, rfl⟩ | ⟨_, _, _, _, rfl⟩
      | ⟨_, _, rfl⟩⟩ := procTLP_cases fires
    all_goals exact ⟨paired, fun write => by simp [lookedUp, busUsed, busAddrs, bufAddrs]⟩
  case completeIORead =>
    simp only [step, completeIORead, Option.bind_eq_bind, Option.pure_def,
      Fifo.bind_deq_eq_some, Bram2.bind_getA_eq_some] at fires
    obtain ⟨ioreq, ioReadQ, taken, v, respA, resp, fires⟩ := fires
    simp only [Option.bind_eq_some_iff, Option.some.injEq] at fires
    obtain ⟨sendTLPm, put, rfl⟩ := fires
    exact ⟨paired, fun write => by simp [lookedUp, busUsed, busAddrs, bufAddrs]⟩
  case procIOWrite =>
    obtain ⟨_, _, _, _, _, ⟨_, rfl⟩ | ⟨_, _, rfl⟩ | ⟨_, _, _, _, rfl⟩⟩ :=
      procIOWrite_cases fires
    all_goals exact ⟨paired, fun write => by simp [lookedUp, busUsed, busAddrs, bufAddrs]⟩
  case relayBufIdxRead =>
    obtain ⟨v, respB, mine, bufidxQ, resp, asked, moved⟩ := relayBufIdxRead_cases fires
    have lengths : bufidxQ.items.length = respB.items.length := by
      have paired : s.pages.bufidxRequestedWriteQ.items.length
          = s.pages.configBuffer.respB.items.length := paired
      rw [asked, resp, List.length_cons, List.length_cons] at paired
      omega
    rcases moved with ⟨rfl, addrQ, put, rfl⟩ | ⟨rfl, addrQ, put, rfl⟩
    all_goals
      refine ⟨lengths, fun write => ?_⟩
      cases write <;> simp [lookedUp, busUsed, busAddrs, bufAddrs, asked, resp, put]
  case splitDmaReadReq2 =>
    obtain ⟨_, tag, freeQ, pageQ, bufidxQ, respB, _, _, asked, resp, rfl⟩ :=
      splitDmaReadReq2_cases fires
    obtain ⟨paired', added⟩ := busAddrs_lookup (u := { s.pages with
      bufidxRequestedWriteQ := bufidxQ, configBuffer.respB := respB }) paired asked resp
      (fun _ => rfl)
    refine ⟨paired', fun write => ?_⟩
    have added := added write
    cases write <;> simpa [lookedUp, busUsed] using added.symm
  case splitDmaWriteReq2 =>
    obtain ⟨_, tag, stageQ, busyQ, pageQ, bufidxQ, respB, _, _, _, asked, resp, rfl⟩ :=
      splitDmaWriteReq2_cases fires
    obtain ⟨paired', added⟩ := busAddrs_lookup (u := { s.pages with
      bufidxRequestedWriteQ := bufidxQ, configBuffer.respB := respB }) paired asked resp
      (fun _ => rfl)
    refine ⟨paired', fun write => ?_⟩
    have added := added write
    cases write <;> simpa [lookedUp, busUsed] using added.symm
  case generateDmaReadTLP =>
    obtain ⟨req, pageQ, v, addrQ, orderQ, sendTLPm, _, taken, _, _, rfl⟩ :=
      generateDmaReadTLP_cases fires
    refine ⟨paired, fun write => ?_⟩
    have used := busAddrs_use (t := s.pages) (u := { s.pages with dmaReadBufAddrQ := addrQ })
      (m := false) rfl rfl taken rfl write
    have head : s.pages.bufAddrs false = v :: addrQ.items := taken
    cases write <;> simpa [lookedUp, busUsed, head] using used
  case generateHeaderTLP =>
    obtain ⟨_, req, pageQ, v, addrQ, data, wordQ, sendQ, _, _, taken, _, _, rfl⟩ :=
      generateHeaderTLP_cases fires
    refine ⟨paired, fun write => ?_⟩
    have used := busAddrs_use (t := s.pages) (u := { s.pages with dmaWriteBufAddrQ := addrQ })
      (m := true) rfl rfl taken rfl write
    have head : s.pages.bufAddrs true = v :: addrQ.items := taken
    cases write <;> simpa [lookedUp, busUsed, head] using used
  all_goals
    have same := frame (by simp [Event.parts])
    refine ⟨by rw [LookupsPaired, same]; exact paired, fun write => ?_⟩
    simp [lookedUp, busUsed, busAddrs, bufAddrs, same]

end BluespecPcie

import Mathlib.Tactic.IntervalCases
import BluespecPcie.Host.Memory
import BluespecPcie.PcieCtrl.PageLookup

/-! DMA writes have exactly the requested effect on host memory. -/

namespace BluespecPcie

open Bluespec

-----------------------------------------------------------------------------------------
-- The beats of a write burst, DW by DW
-----------------------------------------------------------------------------------------

/-- The payload DWs waiting in the carry register. -/
def carryDWs (dmaWriteBuf : DMAWord) : List (BitVec 32) :=
  [reverseEndian (dmaWriteBuf.extractLsb 31 0), reverseEndian (dmaWriteBuf.extractLsb 63 32),
    reverseEndian (dmaWriteBuf.extractLsb 95 64)]

/-- The address a memory request header carries, a DW address. -/
def dwAddr (dmaAddr : BitVec 32) : BitVec 32 := (dmaAddr >>> 2).truncate 30 ++ 0#2

/-- Behind its first DW, a word waits in the carry register. -/
theorem wordDWs_eq (word : DMAWord)
    : wordDWs word = reverseEndian (word.extractLsb 31 0) :: carryDWs (word >>> 32) := by
  have dw (i : Nat) (below : i + 63 < 128)
      : (word >>> 32).extractLsb' i 32 = word.extractLsb' (32 + i) 32 := by
    apply BitVec.eq_of_getLsbD_eq
    intro k within
    simp [within, ← Nat.add_assoc]
  exact congrArg (reverseEndian (word.extractLsb 31 0) :: ·)
    (congrArg₂ List.cons (congrArg reverseEndian (dw 0 (by decide)).symm)
      (congrArg₂ List.cons (congrArg reverseEndian (dw 32 (by decide)).symm)
        (congrArg₂ List.cons (congrArg reverseEndian (dw 64 (by decide)).symm) rfl)))

/-- The carry register never holds more than three DWs. -/
theorem carry_clean (word : DMAWord) : (word >>> 32) >>> 96 = 0#128 := by
  apply BitVec.eq_of_getLsbD_eq
  intro i within
  simp

/-- A full beat packed from four DWs keeps them. -/
theorem keptDWs_packDWs_full (cdw3 cdw2 cdw1 cdw0 : BitVec 32) (last : BitVec 1)
    : keptDWs { tlp := packDWs cdw3 cdw2 cdw1 cdw0, keep := 0xffff#16, last }
      = [cdw0, cdw1, cdw2, cdw3] := by
  obtain ⟨first, second, third, fourth⟩ := dword_packDWs cdw3 cdw2 cdw1 cdw0
  rw [keptDWs_full rfl, first, second, third, fourth]

/-- With twelve bytes enabled, a beat packed from four DWs keeps the first three. -/
theorem keptDWs_packDWs_three (cdw3 cdw2 cdw1 cdw0 : BitVec 32) (last : BitVec 1)
    : keptDWs { tlp := packDWs cdw3 cdw2 cdw1 cdw0, keep := 0x0fff#16, last }
      = [cdw0, cdw1, cdw2] := by
  obtain ⟨first, second, third, _⟩ := dword_packDWs cdw3 cdw2 cdw1 cdw0
  rw [keptDWs_three rfl, first, second, third]

/-- A middle beat carries the DWs of the carry register and the first DW of the next word. -/
theorem keptDWs_middle {dmaWriteBuf : DMAWord} (clean : dmaWriteBuf >>> 96 = 0#128)
    (d : DMAWord) (last : BitVec 1)
    : keptDWs (writeDataTLP (PcieCtrl.nextBeatData dmaWriteBuf d) 0xffff#16 last)
      = carryDWs dmaWriteBuf ++ [reverseEndian (d.extractLsb 31 0)] := by
  have top (i : Nat) (high : 96 ≤ i) : dmaWriteBuf.getLsbD i = false := by
    have bit := congrArg (fun v => v.getLsbD (i - 96)) clean
    simpa [BitVec.getLsbD_ushiftRight, show 96 + (i - 96) = i by omega] using bit
  rw [writeDataTLP, keptDWs_packDWs_full]
  simp only [carryDWs, List.cons_append, List.nil_append, List.cons.injEq, and_true]
  refine ⟨congrArg reverseEndian ?_, congrArg reverseEndian ?_, congrArg reverseEndian ?_,
    congrArg reverseEndian ?_⟩ <;>
  · apply BitVec.eq_of_getLsbD_eq
    intro k within
    simp [PcieCtrl.nextBeatData]
    grind

/-- The last beat carries the DWs of the carry register. -/
theorem keptDWs_final (dmaWriteBuf : DMAWord) (last : BitVec 1)
    : keptDWs (writeDataTLP dmaWriteBuf 0x0fff#16 last) = carryDWs dmaWriteBuf := by
  rw [writeDataTLP, keptDWs_packDWs_three]
  rfl

/-- The header beat: a memory write with all byte enables, its address, and the first DW. -/
theorem keptDWs_header (completer : BitVec 16) (tag : BitVec 8) (dmaAddr : BitVec 32)
    (words : BitVec 10) (data : DMAWord)
    : ∃ cdw0 cdw1,
        keptDWs (writeHeaderTLP completer tag dmaAddr words data)
          = [cdw0, cdw1, dwAddr dmaAddr, reverseEndian (data.extractLsb 31 0)]
        ∧ dwType cdw0 = type_wr32_mem
        ∧ cdw1.extractLsb 7 0 = 0xff#8 := by
  have low : (data.truncate 32 : BitVec 32) = data.extractLsb 31 0 := by
    apply BitVec.eq_of_getLsbD_eq
    intro k within
    simp [within]
  rw [writeHeaderTLP, memoryHeader, keptDWs_packDWs_full, low]
  refine ⟨_, _, rfl, ?_, ?_⟩
  · apply BitVec.eq_of_getLsbD_eq
    intro k within
    simp only [dwType, BitVec.getLsbD_extractLsb, BitVec.getLsbD_append]
    interval_cases k <;> rfl
  · apply BitVec.eq_of_getLsbD_eq
    intro k within
    simp only [BitVec.getLsbD_extractLsb, BitVec.getLsbD_append]
    interval_cases k <;> rfl

/-- The address field of a header, read back. -/
theorem dwAddr_field (dmaAddr : BitVec 32)
    : (dwAddr dmaAddr).extractLsb 31 2 ++ 0#2 = dwAddr dmaAddr := by
  apply BitVec.eq_of_getLsbD_eq
  intro k within
  simp only [dwAddr, BitVec.getLsbD_append, BitVec.getLsbD_extractLsb]
  grind

/-- With DW-aligned bus addresses of pages, headers carry the bus address itself. -/
theorem dwAddr_busAddr {pt : BitVec 32 → BitVec 32} {addr : BitVec 32}
    (aligned : WordAligned addr) (page : (pt (addr >>> 12)).toNat % 4 = 0)
    : dwAddr (busAddr pt addr) = busAddr pt addr := by
  have start : addr.toNat % 16 = 0 := aligned
  have bound := (pt (addr >>> 12)).isLt
  apply BitVec.eq_of_toNat_eq
  rw [dwAddr, toNat_append_add]
  simp only [busAddr, BitVec.truncate_eq_setWidth, BitVec.toNat_setWidth,
    BitVec.toNat_ushiftRight, BitVec.toNat_add, BitVec.extractLsb_toNat, Nat.shiftRight_eq_div_pow, BitVec.toNat_ofNat]
  omega

-----------------------------------------------------------------------------------------
-- What was requested, and what is still to be written where
-----------------------------------------------------------------------------------------

/-- The DMA write requests accepted and the data words supplied, oldest first, beside the
transmit history.
-/
structure WriteLog where
  transmit : TransmitLog
  requests : List (BitVec 32 × BitVec 10)
  supplied : List DMAWord

/-- Nothing has happened. -/
def WriteLog.start : WriteLog := ⟨.start, [], []⟩

/-- The write request an event makes. -/
def Event.writeRequest : Event → List (BitVec 32 × BitVec 10)
  | .dmaWriteReq addr words => [(addr, words)]
  | _ => []

/-- The data word an event supplies. -/
def Event.writeData : Event → List DMAWord
  | .dmaWriteData data => [data]
  | _ => []

def WriteLog.record (s : PcieCtrl) (e : Event) (log : WriteLog) : WriteLog where
  transmit := log.transmit.record s e
  requests := log.requests ++ e.writeRequest
  supplied := log.supplied ++ e.writeData

/-- The bus addresses of the words of a request, in order. -/
def requestTargets (pt : BitVec 32 → BitVec 32) (addr : BitVec 32) (words : BitVec 10)
    : List (BitVec 32) :=
  (wordAddrs (alignWord addr) words.toNat).map (busAddr pt)

/-- The bus addresses of all words requested, in order. -/
def targets (pt : BitVec 32 → BitVec 32) (requests : List (BitVec 32 × BitVec 10))
    : List (BitVec 32) :=
  requests.flatMap (fun request => requestTargets pt request.1 request.2)

/-- The pages a burst looks up have their bus addresses `pt`, DW-aligned like those of pages
are, in the configuration buffer.
-/
def WritesMapped (pt : BitVec 32 → BitVec 32) (s : PcieCtrl) (e : Event) : Prop :=
  e = .splitDmaWriteReq2 →
    s.pages.configBuffer.mem (pageEntry s.writes.dmaStartAddr)
        = pt (s.writes.dmaStartAddr >>> 12)
      ∧ (pt (s.writes.dmaStartAddr >>> 12)).toNat % 4 = 0

instance (pt : BitVec 32 → BitVec 32) (s : PcieCtrl) (e : Event)
    : Decidable (WritesMapped pt s e) :=
  inferInstanceAs (Decidable (_ → _))

/-- The bus addresses of the words of the page requests that have no TLP yet. -/
def PcieCtrl.pendingTargets (s : PcieCtrl) : List (BitVec 32) :=
  (List.zipWith (fun req bus => wordAddrs (dwAddr (bus + req.addr)) req.words.toNat)
    s.writes.dmaPageWriteReqQ.items (s.pages.busAddrs true)).flatten

/-- The bus addresses of the words not split off yet, of the current request and of those
behind it.
-/
def PcieCtrl.unsplitTargets (pt : BitVec 32 → BitVec 32) (s : PcieCtrl) : List (BitVec 32) :=
  (wordAddrs s.writes.dmaStartAddr s.writes.dmaSendWords.toNat).map (busAddr pt)
    ++ targets pt (s.writes.dmaWriteReqQ.items.map (fun req => (req.addr, req.words)))

/-- A burst written: the bus address of its first word, and its words. -/
structure WriteBurst where
  addr : BitVec 32
  data : List DMAWord

namespace WriteBurst

/-- The bus addresses of the words of a burst. -/
def targets (b : WriteBurst) : List (BitVec 32) := wordAddrs b.addr b.data.length

/-- The memory write of a burst. -/
def request (b : WriteBurst) : MemoryWrite :=
  { addr := b.addr, payload := b.data.flatMap wordDWs }

end WriteBurst

/-- The burst under way, with the bus addresses of its words and the words taken for it: its
beats so far and the carry register are a header and the DWs of these words.
-/
inductive BurstOpen (w : WritePath) (burst : List SendTLP)
    : List (BitVec 32) → List DMAWord → Prop
  | idle (none : w.dataWordsRemain = 0) (empty : burst = []) : BurstOpen w burst [] []
  | busy {addr cdw0 cdw1 cdw2 : BitVec 32} {payload : List (BitVec 32)}
    {taken : List DMAWord} {words : Nat}
    (busy : w.dataWordsRemain > 0)
    (count : taken.length + w.dataWordsRemain.toNat = words + 1)
    (write : dwType cdw0 = type_wr32_mem ∧ cdw1.extractLsb 7 0 = 0xff#8)
    (target : cdw2.extractLsb 31 2 ++ 0#2 = addr)
    (beats : burst.flatMap keptDWs = cdw0 :: cdw1 :: cdw2 :: payload)
    (carried : payload ++ carryDWs w.dmaWriteBuf = taken.flatMap wordDWs)
    (clean : w.dmaWriteBuf >>> 96 = 0#128)
    : BurstOpen w burst (wordAddrs addr words) taken

/-- The beats of the write generator are the TLPs of `bursts` and an open burst for `open_`;
the words supplied are those of the bursts, those taken, and those queued; and the words
requested are those of the bursts, of the open one, of the page requests, and those not
split off yet.
-/
structure DmaWriting (pt : BitVec 32 → BitVec 32) (s : PcieCtrl) (log : WriteLog)
    (bursts : List WriteBurst) (opened : List (BitVec 32)) (taken : List DMAWord)
    : Prop where
  sized : PageRequestsSized s
  paired : s.pages.LookupsPaired
  looked : s.writes.dmaPageWriteReqQ.items.length = (s.pages.busAddrs true).length
  written : (cutTLPs [] (ofSource .write log.transmit.offered)).map memoryWrite
    = bursts.map (fun b => some b.request)
  underWay : BurstOpen s.writes (openTLP [] (ofSource .write log.transmit.offered)) opened taken
  data : bursts.flatMap WriteBurst.data ++ taken ++ s.writes.dmaWriteWordQ.items = log.supplied
  plan : bursts.flatMap WriteBurst.targets ++ opened ++ s.pendingTargets ++ s.unsplitTargets pt
    = targets pt log.requests

section Preservation

variable {pt : BitVec 32 → BitVec 32} {s s' : PcieCtrl} {log : WriteLog}
  {bursts : List WriteBurst} {opened : List (BitVec 32)} {taken : List DMAWord}

/-- Only the generator hands over write beats. -/
theorem offered_write {e : Event} {b : SendTLP} (offers : s.offered e = some (.write, b))
    : e = .generateHeaderTLP ∨ e = .generateDataTLP := by
  cases e <;>
    simp only [PcieCtrl.offered, Option.bind_eq_bind, Option.pure_def, reduceCtorEq,
      Option.bind_eq_some_iff, Option.some.injEq, Prod.mk.injEq, false_and, and_false,
      exists_false] at offers
  case filterStatReadTLP =>
    obtain ⟨beat, _, offers⟩ := offers
    split at offers
    next => simp [Option.bind_eq_some_iff] at offers
    next => cases offers
  case procIOWrite =>
    obtain ⟨beat, _, offers⟩ := offers
    split at offers <;> cases offers
  case generateHeaderTLP => exact .inl rfl
  case generateDataTLP => exact .inr rfl

/-- Other events leave the beats of the generator as they are. -/
theorem ofSource_write_record {e : Event} (log : TransmitLog)
    (notHeader : e ≠ .generateHeaderTLP) (notData : e ≠ .generateDataTLP)
    : ofSource .write (log.record s e).offered = ofSource .write log.offered := by
  rw [TransmitLog.record, ofSource_append]
  match offers : s.offered e with
  | none => simp [ofSource]
  | some (source, b) =>
      have other : source ≠ .write := by
        rintro rfl
        rcases offered_write offers with same | same
        · exact notHeader same
        · exact notData same
      rw [Option.toList_some, ofSource_singleton, if_neg other, List.append_nil]

/-- A beat of the generator is appended to its beats. -/
theorem ofSource_write_append {e : Event} {b : SendTLP} (log : TransmitLog)
    (offers : s.offered e = some (.write, b))
    : ofSource .write (log.record s e).offered = ofSource .write log.offered ++ [b] := by
  rw [TransmitLog.record, offers, ofSource_append, Option.toList_some, ofSource_singleton,
    if_pos rfl]

/-- The carry register and the words remaining decide whether an open burst stays so. -/
theorem BurstOpen.congr {w w' : WritePath} {burst : List SendTLP}
    (underWay : BurstOpen w burst opened taken)
    (remain : w'.dataWordsRemain = w.dataWordsRemain)
    (carry : w'.dmaWriteBuf = w.dmaWriteBuf)
    : BurstOpen w' burst opened taken := by
  cases underWay with
  | idle none empty => exact .idle (remain.trans none) empty
  | busy busy count write target beats carried clean =>
      exact .busy (remain ▸ busy) (remain ▸ count) write target beats (carry ▸ carried)
        (carry ▸ clean)

/-- A header beat opens a burst with the oldest page request, bus address and data word. -/
theorem DmaWriting.header (inv : DmaWriting pt s log bursts opened taken)
    (fires : s.step .generateHeaderTLP = some s')
    : ∃ opened' taken',
        DmaWriting pt s' (log.record s .generateHeaderTLP) bursts opened' taken' := by
  have sized := inv.sized.step fires
  obtain ⟨paired, moved⟩ := busAddrs_step inv.paired fires
  obtain ⟨idle, req, pageQ, bus, addrQ, data, wordQ, sendQ, _, requested, looked, supplied, _,
    rfl⟩ := PcieCtrl.generateHeaderTLP_cases fires
  have addrs : s.pages.busAddrs true = bus :: ({ s.pages with
      dmaWriteBufAddrQ := addrQ } : PageTable).busAddrs true := by
    have head : s.pages.bufAddrs true = bus :: addrQ.items := looked
    simpa [PcieCtrl.lookedUp, PcieCtrl.busUsed, head] using moved true
  have offers : s.offered .generateHeaderTLP
      = some (.write, s.writeHeaderOf req bus data) := by
    simp [PcieCtrl.offered, Fifo.first_eq_some.mpr ⟨_, requested⟩,
      Fifo.first_eq_some.mpr ⟨_, looked⟩, Fifo.first_eq_some.mpr ⟨_, supplied⟩]
  obtain ⟨none, rfl, rfl⟩ : openTLP [] (ofSource .write log.transmit.offered) = []
      ∧ opened = [] ∧ taken = [] := by
    cases inv.underWay with
    | idle _ empty => exact ⟨empty, rfl, rfl⟩
    | busy busy _ _ _ _ _ _ => exact absurd busy (by rw [idle]; decide)
  obtain ⟨cutSame, openHeader⟩ := cutTLPs_concat []
    (ofSource .write log.transmit.offered) (s.writeHeaderOf req bus data)
  have middle : ¬(s.writeHeaderOf req bus data).last = 1#1 := by
    simp [PcieCtrl.writeHeaderOf, writeHeaderTLP]
  rw [if_neg middle, List.append_nil] at cutSame
  rw [if_neg middle, none, List.nil_append] at openHeader
  have beats := ofSource_write_append log.transmit offers
  obtain ⟨some, _⟩ := inv.sized.sized req (by simp [requested])
  refine ⟨wordAddrs (dwAddr (bus + req.addr)) req.words.toNat, [data], sized, paired, ?_, ?_, ?_,
    ?_, ?_⟩
  · have lengths := inv.looked
    rw [requested, addrs, List.length_cons, List.length_cons] at lengths
    simpa using lengths
  · rw [WriteLog.record, beats, cutSame]
    exact inv.written
  · rw [WriteLog.record, beats, openHeader]
    obtain ⟨cdw0, cdw1, dws, write, enabled⟩ :=
      keptDWs_header s.cfg_completer_id req.tag (bus + req.addr) req.words data
    refine @BurstOpen.busy _ _ _ _ _ _ [reverseEndian (data.extractLsb 31 0)] _ _
      (by simp only; bv_omega) ?_ ⟨write, enabled⟩ (dwAddr_field _) ?_ ?_
      (carry_clean data)
    · simp only [List.length_singleton]
      omega
    · rw [List.flatMap_singleton]
      exact dws
    · simp [wordDWs_eq]
  · rw [WriteLog.record, ← inv.data, supplied]
    simp [Event.writeData]
  · have pending : s.pendingTargets
        = wordAddrs (dwAddr (bus + req.addr)) req.words.toNat
          ++ (List.zipWith (fun req bus => wordAddrs (dwAddr (bus + req.addr)) req.words.toNat)
            pageQ.items (({ s.pages with
              dmaWriteBufAddrQ := addrQ } : PageTable).busAddrs true)).flatten := by
      rw [PcieCtrl.pendingTargets, requested, addrs]
      rfl
    rw [WriteLog.record, show Event.writeRequest .generateHeaderTLP = [] from rfl,
      List.append_nil, ← inv.plan, pending]
    simp [PcieCtrl.pendingTargets, PcieCtrl.unsplitTargets]

/-- A payload beat takes the next word, or closes the burst. -/
theorem DmaWriting.payload (inv : DmaWriting pt s log bursts opened taken)
    (fires : s.step .generateDataTLP = some s')
    : ∃ bursts' opened' taken',
        DmaWriting pt s' (log.record s .generateDataTLP) bursts' opened' taken' := by
  have sized := inv.sized.step fires
  obtain ⟨paired, moved⟩ := busAddrs_step inv.paired fires
  have addrs : s'.pages.busAddrs true = s.pages.busAddrs true := by
    simpa [PcieCtrl.lookedUp, PcieCtrl.busUsed] using (moved true).symm
  have busyBurst := inv.underWay
  rcases PcieCtrl.generateDataTLP_cases fires with ⟨more, d, wordQ, sendQ, supplied, _, rfl⟩
    | ⟨busy, final, tag, busyQ, freeQ, sendQ, _, _, _, rfl⟩
  · have offers : s.offered .generateDataTLP
        = some (.write,
          writeDataTLP (PcieCtrl.nextBeatData s.writes.dmaWriteBuf d) 0xffff#16 0#1) := by
      simp only [PcieCtrl.offered, if_pos more, Fifo.first_eq_some.mpr ⟨_, supplied⟩]
      rfl
    obtain ⟨cutSame, openMore⟩ := cutTLPs_concat [] (ofSource .write log.transmit.offered)
      (writeDataTLP (PcieCtrl.nextBeatData s.writes.dmaWriteBuf d) 0xffff#16 0#1)
    have middle : ¬(writeDataTLP (PcieCtrl.nextBeatData s.writes.dmaWriteBuf d) 0xffff#16
        0#1).last = 1#1 := by
      simp [writeDataTLP]
    rw [if_neg middle, List.append_nil] at cutSame
    rw [if_neg middle] at openMore
    have beats := ofSource_write_append log.transmit offers
    refine ⟨bursts, opened, taken ++ [d], sized, paired, ?_, ?_, ?_, ?_, ?_⟩
    · rw [addrs]
      exact inv.looked
    · rw [WriteLog.record, beats, cutSame]
      exact inv.written
    · rw [WriteLog.record, beats, openMore]
      cases busyBurst with
      | idle none _ => exact absurd more (by rw [none]; decide)
      | @busy addr cdw0 cdw1 cdw2 payload _ words _ count write target dws carried clean =>
          refine @BurstOpen.busy _ _ _ _ _ _ (payload ++ carryDWs s.writes.dmaWriteBuf
            ++ [reverseEndian (d.extractLsb 31 0)]) _ _ (by simp only; bv_omega) ?_ write target
            ?_ ?_ (carry_clean d)
          · have one : (1 : BitVec 10).toNat = 1 := rfl
            have bigger : (1 : BitVec 10).toNat < s.writes.dataWordsRemain.toNat :=
              BitVec.lt_def.mp more
            simp only [List.length_append, List.length_singleton]
            rw [BitVec.toNat_sub_of_le (BitVec.le_of_lt more)]
            omega
          · rw [List.flatMap_append, dws, List.flatMap_singleton, keptDWs_middle clean]
            simp
          · simp only
            rw [List.flatMap_append, ← carried, List.flatMap_singleton, wordDWs_eq]
            simp
    · rw [WriteLog.record, ← inv.data, supplied]
      simp [Event.writeData]
    · rw [WriteLog.record, show Event.writeRequest .generateDataTLP = [] from rfl,
        List.append_nil, ← inv.plan]
      rfl
  · have offers : s.offered .generateDataTLP
        = some (.write, writeDataTLP s.writes.dmaWriteBuf 0x0fff#16 1#1) := by
      simp only [PcieCtrl.offered, if_neg final]
    obtain ⟨cutMore, openNone⟩ := cutTLPs_concat [] (ofSource .write log.transmit.offered)
      (writeDataTLP s.writes.dmaWriteBuf 0x0fff#16 1#1)
    have last : (writeDataTLP s.writes.dmaWriteBuf 0x0fff#16 1#1).last = 1#1 := rfl
    rw [if_pos last] at cutMore openNone
    have beats := ofSource_write_append log.transmit offers
    have one : s.writes.dataWordsRemain = 1 := by bv_omega
    cases busyBurst with
    | idle none _ => exact absurd busy (by rw [none]; decide)
    | @busy addr cdw0 cdw1 cdw2 payload _ words _ count write target dws carried clean =>
        have complete : taken.length = words := by
          rw [one] at count
          have value : (1 : BitVec 10).toNat = 1 := rfl
          omega
        refine ⟨bursts ++ [⟨addr, taken⟩], [], [], sized, paired, ?_, ?_, ?_, ?_, ?_⟩
        · rw [addrs]
          exact inv.looked
        · rw [WriteLog.record, beats, cutMore, List.map_append, List.map_append, inv.written]
          have decoded : memoryWrite (openTLP [] (ofSource .write log.transmit.offered)
              ++ [writeDataTLP s.writes.dmaWriteBuf 0x0fff#16 1#1])
              = some (WriteBurst.request ⟨addr, taken⟩) := by
            have whole : (openTLP [] (ofSource .write log.transmit.offered)
                ++ [writeDataTLP s.writes.dmaWriteBuf 0x0fff#16 1#1]).flatMap keptDWs
                = cdw0 :: cdw1 :: cdw2 :: taken.flatMap wordDWs := by
              rw [List.flatMap_append, dws, List.flatMap_singleton, keptDWs_final, ← carried]
              rfl
            simp only [memoryWrite, whole, if_pos write, target]
            rfl
          rw [List.map_singleton, List.map_singleton, decoded]
        · rw [WriteLog.record, beats, openNone]
          exact .idle (by simp [one]) rfl
        · rw [WriteLog.record, ← inv.data]
          simp [Event.writeData]
        · have closed : WriteBurst.targets ⟨addr, taken⟩ = wordAddrs addr words := by
            rw [WriteBurst.targets, complete]
          have same : (log.record s .generateDataTLP).requests = log.requests :=
            List.append_nil _
          rw [same, ← inv.plan, List.flatMap_append, List.flatMap_singleton, closed,
            List.append_nil]
          rfl

/-- Events other than the generator's only move the plan forward or add to it. -/
theorem DmaWriting.elsewhere {e : Event} (inv : DmaWriting pt s log bursts opened taken)
    (fires : s.step e = some s') (notHeader : e ≠ .generateHeaderTLP)
    (notData : e ≠ .generateDataTLP) (carry : s'.writes.dmaWriteBuf = s.writes.dmaWriteBuf)
    (supplied : s'.writes.dmaWriteWordQ.items = s.writes.dmaWriteWordQ.items ++ e.writeData)
    (looked : s'.writes.dmaPageWriteReqQ.items.length = (s'.pages.busAddrs true).length)
    (plan : s'.pendingTargets ++ s'.unsplitTargets pt
      = s.pendingTargets ++ s.unsplitTargets pt ++ targets pt e.writeRequest)
    : DmaWriting pt s' (log.record s e) bursts opened taken := by
  have beats := ofSource_write_record log.transmit notHeader notData (s := s)
  refine ⟨inv.sized.step fires, (busAddrs_step inv.paired fires).1, looked, ?_, ?_, ?_, ?_⟩
  · rw [WriteLog.record, beats]
    exact inv.written
  · rw [WriteLog.record, beats]
    exact inv.underWay.congr (dataWordsRemain_unchanged fires notHeader notData) carry
  · rw [WriteLog.record, ← inv.data, supplied]
    simp
  · have requests : targets pt (log.record s e).requests
        = targets pt log.requests ++ targets pt e.writeRequest := List.flatMap_append
    rw [List.append_assoc, plan, requests, ← inv.plan]
    simp

/-- Splitting a burst off adds a page request with the bus addresses of the burst's words. -/
theorem DmaWriting.split (inv : DmaWriting pt s log bursts opened taken)
    (mapped : WritesMapped pt s .splitDmaWriteReq2)
    (fires : s.step .splitDmaWriteReq2 = some s')
    : DmaWriting pt s' (log.record s .splitDmaWriteReq2) bursts opened taken := by
  obtain ⟨entry, aligned⟩ := mapped rfl
  obtain ⟨paired, moved⟩ := busAddrs_step inv.paired fires
  have elsewhere := inv.elsewhere fires (by decide) (by decide)
  obtain ⟨busy, tag, stageQ, busyQ, pageQ, bufidxQ, respB, _, _, requested, _, _, rfl⟩ :=
    PcieCtrl.splitDmaWriteReq2_cases fires
  have covers := splitRead_covers inv.sized.aligned busy
  rw [← splitWrite_eq] at covers
  generalize splitWrite s.writes.dmaStartAddr s.writes.dmaSendWords = burst at *
  have addrs := (moved true).symm
  simp only [PcieCtrl.lookedUp, PcieCtrl.busUsed, if_true, List.nil_append, entry] at addrs
  have target : (wordAddrs s.writes.dmaStartAddr burst.words.toNat).map (busAddr pt)
      = wordAddrs (dwAddr (pt (s.writes.dmaStartAddr >>> 12)
        + (s.writes.dmaStartAddr.extractLsb 11 0).zeroExtend 32)) burst.words.toNat := by
    rw [map_busAddr_wordAddrs pt covers.inPage]
    exact congrArg (wordAddrs · _) (dwAddr_busAddr inv.sized.aligned aligned).symm
  refine elsewhere rfl (by simp [Event.writeData]) ?_ ?_
  · simp only [addrs, requested, List.length_append, inv.looked, List.length_singleton]
  · simp only [PcieCtrl.pendingTargets, PcieCtrl.unsplitTargets, addrs, requested,
      List.zipWith_append inv.looked, ← covers.total, wordAddrs_add, covers.next,
      List.map_append, target]
    simp [Event.writeRequest, targets]

/-- Every event keeps the arrangement. -/
theorem DmaWriting.step {e : Event} (inv : DmaWriting pt s log bursts opened taken)
    (mapped : WritesMapped pt s e) (fires : s.step e = some s')
    : ∃ bursts' opened' taken', DmaWriting pt s' (log.record s e) bursts' opened' taken' := by
  obtain ⟨paired, moved⟩ := busAddrs_step inv.paired fires
  have frame := (step_unchanged fires).writes
  cases e
  case generateHeaderTLP =>
    obtain ⟨opened', taken', next⟩ := inv.header fires
    exact ⟨bursts, opened', taken', next⟩
  case generateDataTLP => exact inv.payload fires
  case splitDmaWriteReq2 => exact ⟨bursts, opened, taken, inv.split mapped fires⟩
  case dmaWriteReq addr words =>
    have elsewhere := inv.elsewhere fires (by simp) (by simp)
    obtain ⟨reqQ, put, rfl⟩ := PcieCtrl.dmaWriteReq_cases fires
    refine ⟨bursts, opened, taken, elsewhere rfl (by simp [Event.writeData]) inv.looked ?_⟩
    simp [PcieCtrl.pendingTargets, PcieCtrl.unsplitTargets, put, Event.writeRequest, targets]
  case dmaWriteData data =>
    have elsewhere := inv.elsewhere fires (by simp) (by simp)
    obtain ⟨wordQ, put, rfl⟩ := PcieCtrl.dmaWriteData_cases fires
    refine ⟨bursts, opened, taken, elsewhere rfl put inv.looked ?_⟩
    simp [PcieCtrl.pendingTargets, PcieCtrl.unsplitTargets, Event.writeRequest, targets]
  case splitDmaWriteReq =>
    have elsewhere := inv.elsewhere fires (by simp) (by simp)
    obtain ⟨idle, req, reqQ, next, rfl⟩ := PcieCtrl.splitDmaWriteReq_cases fires
    refine ⟨bursts, opened, taken, elsewhere rfl (by simp [Event.writeData]) inv.looked ?_⟩
    simp [PcieCtrl.pendingTargets, PcieCtrl.unsplitTargets, next, idle, Event.writeRequest,
      targets, requestTargets]
  case relayFreeWriteTag =>
    have elsewhere := inv.elsewhere fires (by simp) (by simp)
    obtain ⟨tag, freeQ, stageQ, _, _, rfl⟩ := PcieCtrl.relayFreeWriteTag_cases fires
    refine ⟨bursts, opened, taken, elsewhere rfl (by simp [Event.writeData]) inv.looked ?_⟩
    simp [PcieCtrl.pendingTargets, PcieCtrl.unsplitTargets, Event.writeRequest, targets]
  all_goals
    have writes := frame (by simp [Event.parts])
    have addrs := moved true
    simp only [PcieCtrl.lookedUp, PcieCtrl.busUsed, List.append_nil, List.nil_append, if_true]
      at addrs
    refine ⟨bursts, opened, taken, inv.elsewhere fires (by simp) (by simp)
      (congrArg WritePath.dmaWriteBuf writes) (by simp [writes, Event.writeData]) ?_ ?_⟩
    · rw [writes, ← addrs]
      exact inv.looked
    · simp [PcieCtrl.pendingTargets, PcieCtrl.unsplitTargets, writes, ← addrs,
        Event.writeRequest, targets]

end Preservation

-----------------------------------------------------------------------------------------
-- What the TLPs sent do to host memory
-----------------------------------------------------------------------------------------

/-- A memory write has the data bit of its format set and no completion bit. -/
theorem bits_of_write {tlp : BitVec 128} (write : tlpType tlp = type_wr32_mem)
    : (dword tlp 0).getLsbD 30 = true ∧ (dword tlp 0).getLsbD 25 = false := by
  rw [tlpType_eq] at write
  constructor
  · have bit := congrArg (fun v => v.getLsbD 6) write
    simpa [dwType, BitVec.getLsbD_extractLsb, type_wr32_mem] using bit
  · have bit := congrArg (fun v => v.getLsbD 1) write
    simpa [dwType, BitVec.getLsbD_extractLsb, type_wr32_mem] using bit

/-- A beat of a TLP without a memory write: its first three DWs are kept, of another type. -/
def NoWrite (b : SendTLP) : Prop :=
  tlpType b.tlp ≠ type_wr32_mem ∧ (b.keep = 0xffff#16 ∨ b.keep = 0x0fff#16)

/-- A completion with data writes no memory. -/
theorem noWrite_completionTLP (completer rid : BitVec 16) (tag : BitVec 8) (tc : BitVec 3)
    (td ep : BitVec 1) (attr : BitVec 2) (lower : BitVec 7) (data : BitVec 32)
    : NoWrite (completionTLP completer rid tag tc td ep attr lower data) := by
  refine ⟨fun write => ?_, .inl rfl⟩
  have bit := (bits_of_write write).2
  rw [completionTLP, (dword_packDWs _ _ _ _).1] at bit
  simp only [BitVec.getLsbD_append] at bit
  cases bit

/-- A beat that is not the write generator's is no memory write. -/
theorem offered_noWrite {s : PcieCtrl} {e : Event} {source : TlpSource} {b : SendTLP}
    (offers : s.offered e = some (source, b)) (other : source ≠ .write)
    : NoWrite b := by
  cases e <;>
    simp only [PcieCtrl.offered, Option.bind_eq_bind, Option.pure_def, reduceCtorEq,
      Option.bind_eq_some_iff, Option.some.injEq, Prod.mk.injEq] at offers
  case filterStatReadTLP =>
    obtain ⟨beat, _, offers⟩ := offers
    split at offers
    next read =>
      simp only [Option.bind_eq_some_iff, Option.some.injEq, Prod.mk.injEq] at offers
      obtain ⟨data, _, rfl, rfl⟩ := offers
      exact noWrite_completionTLP ..
    next => cases offers
  case procIOWrite =>
    obtain ⟨beat, _, offers⟩ := offers
    split at offers
    next io =>
      cases offers
      refine ⟨fun write => ?_, .inr rfl⟩
      have bit := (bits_of_write write).2
      rw [PcieCtrl.ioWriteCompletion, writeCompletionTLP, (dword_packDWs _ _ _ _).1] at bit
      cases bit
    next => cases offers
  case completeIORead =>
    obtain ⟨_, _, _, _, rfl, rfl⟩ := offers
    exact noWrite_completionTLP ..
  case generateDmaReadTLP =>
    obtain ⟨_, _, _, _, rfl, rfl⟩ := offers
    refine ⟨fun write => ?_, .inr rfl⟩
    have bit := (bits_of_write write).1
    rw [PcieCtrl.readRequestOf, readRequestTLP, memoryHeader, (dword_packDWs _ _ _ _).1] at bit
    simp only [BitVec.getLsbD_append] at bit
    cases bit
  case dataSend ioreq data =>
    obtain ⟨rfl, rfl⟩ := offers
    exact noWrite_completionTLP ..
  case generateHeaderTLP =>
    obtain ⟨_, _, _, _, _, _, rfl, _⟩ := offers
    exact absurd rfl other
  case generateDataTLP =>
    split at offers
    next =>
      simp only [Option.bind_eq_some_iff, Option.some.injEq, Prod.mk.injEq] at offers
      obtain ⟨_, _, rfl, _⟩ := offers
      exact absurd rfl other
    next =>
      simp only [Option.some.injEq, Prod.mk.injEq] at offers
      exact absurd offers.1.symm other

/-- In every run, only the write generator hands over memory writes. -/
theorem offered_writes {p : PowerUp} {state : PcieCtrl × TransmitLog}
    (run : Reach (traced PcieCtrl.step TransmitLog.record) anyEvent
      (mkPcieCtrl p, TransmitLog.start) state)
    : ∀ entry ∈ state.2.offered, entry.1 ≠ .write → NoWrite entry.2 := by
  refine run.invariant (P := fun state => ∀ entry ∈ state.2.offered,
    entry.1 ≠ .write → NoWrite entry.2) (by simp [TransmitLog.start]) ?_
  rintro ⟨s, log⟩ e ⟨s', log'⟩ inv _ fires entry member other
  obtain ⟨_, rfl⟩ := traced_eq_some.mp fires
  rcases List.mem_append.mp member with old | new
  · exact inv entry old other
  · obtain ⟨source, b⟩ := entry
    exact offered_noWrite (Option.mem_toList.mp new) other

/-- A TLP whose first beat is no memory write makes none. -/
theorem memoryWrite_none {header : SendTLP} (rest : List SendTLP) (noWrite : NoWrite header)
    : memoryWrite (header :: rest) = none := by
  have notWrite : ¬dwType (dword header.tlp 0) = type_wr32_mem := tlpType_eq _ ▸ noWrite.1
  rcases noWrite.2 with full | three
  · simp [memoryWrite, keptDWs_full full, notWrite]
  · simp [memoryWrite, keptDWs_three three, notWrite]

/-- Of the TLPs through the send queue, only those of the generator write host memory. -/
theorem memoryWrites_order {order : List (TlpSource × List SendTLP)}
    {offered : List (TlpSource × SendTLP)}
    (noWrites : ∀ entry ∈ offered, entry.1 ≠ .write → NoWrite entry.2)
    (whole : ∀ t ∈ order, WholeTLP t.2)
    (sources : ∀ source, ∀ b ∈ (ofSource source order).flatten, (source, b) ∈ offered)
    : (order.map Prod.snd).filterMap memoryWrite
      = (ofSource .write order).filterMap memoryWrite := by
  induction order with
  | nil => rfl
  | cons t order ih =>
      have later := ih (fun other member => whole other (by simp [member])) ?_
      · obtain ⟨source, tlp⟩ := t
        by_cases write : source = .write
        · subst write
          simp only [List.map_cons, ofSource, List.filter_cons_of_pos, decide_true]
          rw [List.filterMap_cons, List.filterMap_cons, later]
          rfl
        · obtain ⟨header, rest, rfl, _⟩ := (whole (source, tlp) (by simp)).dws
          have entered : (source, header) ∈ offered :=
            sources source header (by simp [ofSource])
          have skipped : ofSource .write ((source, header :: rest) :: order)
              = ofSource .write order := by
            simp [ofSource, write]
          rw [List.map_cons, List.filterMap_cons, skipped,
            memoryWrite_none rest (noWrites _ entered write)]
          exact later
      · intro source b member
        refine sources source b ?_
        obtain ⟨tlp, inOrder, inTlp⟩ := List.mem_flatten.mp member
        refine List.mem_flatten.mpr ⟨tlp, ?_, inTlp⟩
        simp only [ofSource, List.mem_map, List.mem_filter] at inOrder ⊢
        obtain ⟨entry, ⟨found, labelled⟩, rfl⟩ := inOrder
        exact ⟨entry, ⟨by simp [found], labelled⟩, rfl⟩

/-- The memory writes of bursts store their words at their targets, one after the other. -/
theorem apply_bursts (mem : HostMemory) (bursts : List WriteBurst)
    : (bursts.map WriteBurst.request).foldl MemoryWrite.apply mem
      = storeWords mem
          ((bursts.flatMap WriteBurst.targets).zip (bursts.flatMap WriteBurst.data)) := by
  induction bursts generalizing mem with
  | nil => rfl
  | cons b bursts ih =>
      have one : MemoryWrite.apply mem b.request = storeWords mem (b.targets.zip b.data) := by
        rw [MemoryWrite.apply, WriteBurst.request, List.flatMap_assoc]
        simp only [payloadBytes_wordDWs]
        exact storeBytes_words mem b.addr b.data
      have lengths : b.targets.length = b.data.length := length_wordAddrs ..
      rw [List.map_cons, List.foldl_cons, one, ih, List.flatMap_cons, List.flatMap_cons,
        List.zip_append lengths, storeWords_append]

/-- No write request, data word or beat is on its way. -/
def PcieCtrl.WritesDrained (s : PcieCtrl) : Prop :=
  s.writes.dmaWriteReqQ.items = []
  ∧ s.writes.dmaSendWords = 0
  ∧ s.writes.dmaPageWriteReqQ.items = []
  ∧ s.writes.dataWordsRemain = 0
  ∧ s.tx.sendTLPQ.items = []

instance (s : PcieCtrl) : Decidable s.WritesDrained :=
  inferInstanceAs (Decidable (_ ∧ _ ∧ _ ∧ _ ∧ _))

/-- Host memory has taken the first `stored` words supplied, each at the bus address of its
place in the requests, and nothing else; the payload of the memory writes sent is these words,
and every TLP sent is as long as its header says. All words are stored once nothing is on its
way.
-/
structure WritesLand (pt : BitVec 32 → BitVec 32) (s : PcieCtrl) (log : WriteLog)
    (mem : HostMemory) (stored : Nat) : Prop where
  memory : hostMemory mem log.transmit.sent
    = storeWords mem (((targets pt log.requests).zip log.supplied).take stored)
  payload : ((cutTLPs [] log.transmit.sent).filterMap memoryWrite).flatMap MemoryWrite.payload
    = (log.supplied.take stored).flatMap wordDWs
  requested : stored ≤ (targets pt log.requests).length ∧ stored ≤ log.supplied.length
  whole : ∀ tlp ∈ cutTLPs [] log.transmit.sent, WholeTLP tlp
  drained : s.WritesDrained → stored = (targets pt log.requests).length

-----------------------------------------------------------------------------------------
-- Whole runs
-----------------------------------------------------------------------------------------

section Runs

variable {pt : BitVec 32 → BitVec 32} {p : PowerUp} {state : PcieCtrl × WriteLog}

/-- In every run that looks up mapped pages, the arrangement holds; induction on the run. -/
theorem dmaWriting (run : Reach (traced PcieCtrl.step WriteLog.record)
      (fun state e => WritesMapped pt state.1 e) (mkPcieCtrl p, WriteLog.start) state)
    : ∃ bursts opened taken, DmaWriting pt state.1 state.2 bursts opened taken := by
  refine run.invariant (P := fun state => ∃ bursts opened taken,
    DmaWriting pt state.1 state.2 bursts opened taken) ?_ ?_
  · refine ⟨[], [], [], ⟨rfl, by simp [mkPcieCtrl]⟩, rfl, rfl, rfl, .idle rfl rfl, rfl, ?_⟩
    simp [PcieCtrl.pendingTargets, PcieCtrl.unsplitTargets, mkPcieCtrl, targets,
      WriteLog.start]
  · rintro ⟨s, log⟩ e ⟨s', log'⟩ ⟨bursts, opened, taken, inv⟩ mapped fires
    obtain ⟨fired, rfl⟩ := traced_eq_some.mp fires
    exact inv.step mapped fired

/-- The memory writes sent are those of the first bursts. -/
theorem sent_bursts (run : Reach (traced PcieCtrl.step WriteLog.record)
      (fun state e => WritesMapped pt state.1 e) (mkPcieCtrl p, WriteLog.start) state)
    {bursts : List WriteBurst} {opened : List (BitVec 32)} {taken : List DMAWord}
    (writing : DmaWriting pt state.1 state.2 bursts opened taken)
    : (∀ tlp ∈ cutTLPs [] state.2.transmit.sent, WholeTLP tlp)
      ∧ ∃ n,
          (cutTLPs [] state.2.transmit.sent).filterMap memoryWrite
            = (bursts.take n).map WriteBurst.request
          ∧ (state.1.writes.dataWordsRemain = 0 → state.1.tx.sendTLPQ.items = [] →
              bursts.take n = bursts) := by
  have transmitted := run.forget (r := TransmitLog.record) (f := WriteLog.transmit)
    (fun _ _ _ => rfl)
  obtain ⟨order, burst, waiting, inv⟩ := multiplexed transmitted
  have whole : ∀ t ∈ order.map Prod.snd, WholeTLP t := by
    intro t member
    obtain ⟨entry, inOrder, rfl⟩ := List.mem_map.mp member
    exact inv.whole entry inOrder
  have generated : cutTLPs [] (ofSource .write state.2.transmit.offered)
      = ofSource .write order := by
    rw [inv.sources .write, inv.noWrites, List.append_nil]
    refine cutTLPs_flatten (fun t member => ?_) inv.underWay.unfinished
    obtain ⟨entry, inOrder, rfl⟩ := List.mem_map.mp member
    exact inv.whole entry (List.mem_filter.mp inOrder).1
  have writes : (order.map Prod.snd).filterMap memoryWrite
      = bursts.map WriteBurst.request := by
    rw [memoryWrites_order (offered_writes transmitted) inv.whole ?_]
    · have written := writing.written
      rw [generated] at written
      calc (ofSource .write order).filterMap memoryWrite
          = ((ofSource .write order).map memoryWrite).filterMap id := by
            rw [List.filterMap_map]
            rfl
        _ = (bursts.map (fun b => some b.request)).filterMap id := by rw [written]
        _ = bursts.map WriteBurst.request := by
            rw [List.filterMap_map]
            exact congrFun List.filterMap_eq_map' bursts
    · intro source b member
      have entered : b ∈ ofSource source state.2.transmit.offered := by
        rw [inv.sources source, List.append_assoc]
        exact List.mem_append_left _ member
      obtain ⟨entry, found, rfl⟩ := List.mem_map.mp entered
      obtain ⟨inLog, labelled⟩ := List.mem_filter.mp found
      rw [← of_decide_eq_true labelled]
      exact inLog
  have beats := inv.beats
  have cut := cutTLPs_append [] state.2.transmit.sent state.1.tx.sendTLPQ.items
  have all : cutTLPs [] (state.2.transmit.sent ++ state.1.tx.sendTLPQ.items)
      = order.map Prod.snd := by
    rw [beats, List.flatMap_def, cutTLPs_flatten whole inv.underWay.unfinished]
  rw [all] at cut
  refine ⟨fun tlp member => whole tlp (cut.subset member), ?_⟩
  have requests := cut.filterMap memoryWrite
  rw [writes] at requests
  refine ⟨((cutTLPs [] state.2.transmit.sent).filterMap memoryWrite).length, ?_, ?_⟩
  · rw [List.map_take]
    exact List.prefix_iff_eq_take.mp requests
  · intro _ empty
    rw [empty, List.append_nil] at all
    rw [all, writes, List.length_map, List.take_length]

/-- The words of the first bursts are the first words requested, and the first supplied. -/
theorem DmaWriting.take {s : PcieCtrl} {log : WriteLog} {bursts : List WriteBurst}
    {opened : List (BitVec 32)} {taken : List DMAWord}
    (writing : DmaWriting pt s log bursts opened taken) (n : Nat)
    : ∃ stored,
        (bursts.take n).flatMap WriteBurst.targets = (targets pt log.requests).take stored
        ∧ (bursts.take n).flatMap WriteBurst.data = log.supplied.take stored
        ∧ stored = ((bursts.take n).flatMap WriteBurst.targets).length
        ∧ stored ≤ (targets pt log.requests).length
        ∧ stored ≤ log.supplied.length := by
  have lengths (bs : List WriteBurst)
      : (bs.flatMap WriteBurst.targets).length = (bs.flatMap WriteBurst.data).length := by
    induction bs with
    | nil => rfl
    | cons b bs ih =>
        rw [List.flatMap_cons, List.flatMap_cons, List.length_append, List.length_append, ih,
          WriteBurst.targets, length_wordAddrs]
  have first {α : Type} (f : WriteBurst → List α)
      : ((bursts.take n).flatMap f).IsPrefix (bursts.flatMap f) :=
    ⟨(bursts.drop n).flatMap f, by rw [← List.flatMap_append, List.take_append_drop]⟩
  have addrs : (bursts.flatMap WriteBurst.targets).IsPrefix (targets pt log.requests) :=
    ⟨opened ++ s.pendingTargets ++ s.unsplitTargets pt, by rw [← writing.plan]; simp⟩
  have words : (bursts.flatMap WriteBurst.data).IsPrefix log.supplied :=
    ⟨taken ++ s.writes.dmaWriteWordQ.items, by rw [← writing.data]; simp⟩
  have addrs' := (first WriteBurst.targets).trans addrs
  have words' := (first WriteBurst.data).trans words
  refine ⟨_, List.prefix_iff_eq_take.mp addrs', ?_, rfl, addrs'.length_le, ?_⟩
  · rw [lengths]
    exact List.prefix_iff_eq_take.mp words'
  · rw [lengths]
    exact words'.length_le

/-- DMA writes have exactly the requested effect on host memory, for every sequence of
requests and data, every other traffic and every order of rule firings.
-/
theorem dma_writes_land (run : Reach (traced PcieCtrl.step WriteLog.record)
      (fun state e => WritesMapped pt state.1 e) (mkPcieCtrl p, WriteLog.start) state)
    (mem : HostMemory)
    : ∃ stored, WritesLand pt state.1 state.2 mem stored := by
  obtain ⟨bursts, opened, taken, writing⟩ := dmaWriting run
  obtain ⟨whole, n, sent, complete⟩ := sent_bursts run writing
  obtain ⟨stored, addrs, words, count, requested, supplied⟩ := writing.take n
  refine ⟨stored, ?_, ?_, ⟨requested, supplied⟩, whole, ?_⟩
  · have both : ((targets pt state.2.requests).zip state.2.supplied).take stored
        = ((targets pt state.2.requests).take stored).zip (state.2.supplied.take stored) :=
      List.take_zipWith
    rw [hostMemory, sent, apply_bursts, both, addrs, words]
  · rw [sent, ← words, List.flatMap_map, List.flatMap_assoc]
    rfl
  · rintro ⟨noRequests, split, noPages, idle, sentAll⟩
    have none : opened = [] := by
      cases writing.underWay with
      | idle _ _ => rfl
      | busy busy _ _ _ _ _ _ => exact absurd busy (by rw [idle]; decide)
    have plan := writing.plan
    simp only [PcieCtrl.pendingTargets, PcieCtrl.unsplitTargets, noRequests, split, noPages,
      none, List.append_nil, List.zipWith_nil_left, List.flatten_nil, List.map_nil] at plan
    rw [count, complete idle sentAll, ← plan]
    simp [targets]

end Runs

/-- Two pages at bus addresses 0x1000 and 0x8000. -/
def twoPages (page : BitVec 32) : BitVec 32 := if page = 0 then 0x1000#32 else 0x8000#32

/-- A configuration buffer that holds the bus addresses of the two pages. -/
def twoPagesPowerUp : PowerUp :=
  { (default : PowerUp) with
    configBuffer := fun entry => if entry = 8 then 0x1000#32 else 0x8000#32 }

/-- A write of two words across the end of the first page, in two bursts. -/
def acrossPagesRun : List Event :=
  [.insertFreeTag, .insertFreeTag, .relayFreeWriteTag, .dmaWriteData 7, .dmaWriteReq 0xff0 2,
    .splitDmaWriteReq, .splitDmaWriteReq2, .relayBufIdxRead, .generateHeaderTLP,
    .relayFreeWriteTag, .dmaWriteData 9, .splitDmaWriteReq2, .generateDataTLP,
    .relayBufIdxRead, .generateHeaderTLP, .generateDataTLP, .relayTLP, .relayTLP, .relayTLP,
    .relayTLP]

/-- After that run the two words are at the end of one page and at the start of the other. -/
theorem dma_writes_land_acrossPages
    : ∃ state : PcieCtrl × WriteLog,
        Reach (traced PcieCtrl.step WriteLog.record)
          (fun state e => WritesMapped twoPages state.1 e)
          (mkPcieCtrl twoPagesPowerUp, WriteLog.start) state
        ∧ state.2.requests = [(0xff0, 2)]
        ∧ hostMemory (fun _ => 0) state.2.transmit.sent
          = storeWords (fun _ => 0) [(0x1ff0, 7), (0x8000, 9)] := by
  obtain ⟨state, run, seen⟩ := exec_reach_map (traced PcieCtrl.step WriteLog.record)
    (fun state e => WritesMapped twoPages state.1 e) (mkPcieCtrl twoPagesPowerUp, WriteLog.start) acrossPagesRun
    (fun state => (state.2.requests, state.2.supplied, decide state.1.WritesDrained))
    ([(0xff0, 2)], [7, 9], true) (by decide +kernel)
  simp only [Prod.mk.injEq, decide_eq_true_eq] at seen
  obtain ⟨requests, supplied, drained⟩ := seen
  obtain ⟨stored, land⟩ := dma_writes_land run (fun _ => 0)
  have all := land.drained drained
  have memory := land.memory
  rw [all, requests, supplied] at memory
  exact ⟨state, run, requests, memory⟩

end BluespecPcie

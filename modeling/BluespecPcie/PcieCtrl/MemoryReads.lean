import BluespecPcie.PcieCtrl.Completions
import BluespecPcie.PcieCtrl.DmaWrite

/-! Which TLPs are memory reads, and that those sent are the read requests handed over, in order. -/

namespace BluespecPcie

open Bluespec

-----------------------------------------------------------------------------------------
-- Memory reads as the host decodes them
-----------------------------------------------------------------------------------------

/-- A memory read request: its tag, its address, and the DWs it asks for. -/
structure MemoryRead where
  tag : BitVec 8
  addr : BitVec 32
  dws : Nat
deriving DecidableEq

/-- The memory read a TLP makes: a 32-bit memory read with all byte enables set, where the length
zero stands for 1024 DWs.
-/
def memoryRead (tlp : List SendTLP) : Option MemoryRead :=
  match tlp.flatMap keptDWs with
  | [cdw0, cdw1, cdw2] =>
      if dwType cdw0 = type_rd32_mem ∧ cdw1.extractLsb 7 0 = 0xff#8 then
        some
          { tag := cdw1.extractLsb 15 8
            addr := cdw2.extractLsb 31 2 ++ 0#2
            dws := if dwLength cdw0 = 0 then 1024 else (dwLength cdw0).toNat }
      else none
  | _ => none

namespace MemoryRead

/-- The bus addresses of the words a memory read asks for. -/
def targets (r : MemoryRead) : List (BitVec 32) := wordAddrs r.addr (r.dws / 4)

/-- The tag and the DWs, as a burst has them. -/
def burst (r : MemoryRead) : BitVec 8 × Nat := (r.tag, r.dws)

/-- A memory read asks for one to eight words. -/
def Sized (r : MemoryRead) : Prop := 0 < r.dws ∧ r.dws ≤ 32 ∧ r.dws % 4 = 0

end MemoryRead

/-- The memory read of a page request with its bus address. -/
def DMAReq.memoryRead (req : DMAReq) (bus : BitVec 32) : MemoryRead where
  tag := req.tag
  addr := dwAddr (bus + req.addr)
  dws := 4 * req.words.toNat

/-- A read request TLP is decoded as the read it was built for. -/
theorem memoryRead_readRequestTLP (completer : BitVec 16) {req : DMAReq} (bus : BitVec 32)
    (some : 0 < req.words.toNat) (few : req.words.toNat ≤ 8)
    : memoryRead [readRequestTLP completer req.tag (bus + req.addr) req.words]
      = .some (req.memoryRead bus) := by
  have type := tlpType_readRequestTLP completer req.tag (bus + req.addr) req.words
  rw [tlpType_eq, readRequestTLP, memoryHeader, (dword_packDWs ..).1] at type
  have enables : (completer ++ req.tag ++ 0xf#4 ++ 0xf#4).extractLsb 7 0 = 0xff#8 := by
    apply BitVec.eq_of_getLsbD_eq
    intro k within
    simp only [BitVec.getLsbD_extractLsb, BitVec.getLsbD_append]
    interval_cases k <;> rfl
  have tag : (completer ++ req.tag ++ 0xf#4 ++ 0xf#4).extractLsb 15 8 = req.tag := by
    apply BitVec.eq_of_getLsbD_eq
    intro k within
    simp only [BitVec.getLsbD_extractLsb, BitVec.getLsbD_append]
    grind
  have length : (req.words <<< 2).toNat = 4 * req.words.toNat := by
    rw [BitVec.toNat_shiftLeft, Nat.shiftLeft_eq]
    omega
  have nonzero : req.words <<< 2 ≠ 0 := by
    intro zero
    rw [zero] at length
    simp only [BitVec.ofNat_eq_ofNat, BitVec.toNat_ofNat] at length
    omega
  rw [memoryRead, readRequestTLP, memoryHeader, List.flatMap_singleton, keptDWs_packDWs_three]
  simp only
  rw [if_pos ⟨type, enables⟩, dwLength_append, if_neg nonzero, length, tag, DMAReq.memoryRead,
    ← dwAddr_field]
  rfl

/-- A completion with data keeps four DWs, so it is no memory read. -/
theorem memoryRead_completionTLP (completer rid : BitVec 16) (tag : BitVec 8) (tc : BitVec 3)
    (td ep : BitVec 1) (attr : BitVec 2) (lower : BitVec 7) (data : BitVec 32)
    : memoryRead [completionTLP completer rid tag tc td ep attr lower data] = none := by
  rw [memoryRead, completionTLP, List.flatMap_singleton, keptDWs_packDWs_full]

/-- A completion without data is no memory read by its type. -/
theorem memoryRead_writeCompletionTLP (completer rid : BitVec 16) (tag : BitVec 8)
    (lower : BitVec 7)
    : memoryRead [writeCompletionTLP completer rid tag lower] = none := by
  have type := tlpType_writeCompletionTLP completer rid tag lower
  rw [tlpType_eq, writeCompletionTLP, (dword_packDWs ..).1] at type
  rw [memoryRead, writeCompletionTLP, List.flatMap_singleton, keptDWs_packDWs_three]
  simp only
  rw [if_neg]
  intro both
  rw [both.1] at type
  exact absurd type (by decide)

/-- A TLP of several beats has more DWs than a memory read. -/
theorem memoryRead_long {tlp : List SendTLP} (whole : WholeTLP tlp) (long : 2 ≤ tlp.length)
    : memoryRead tlp = none := by
  obtain ⟨front, final, rfl, -, full⟩ := whole.closed
  cases front with
  | nil => simp at long
  | cons b front =>
      rw [memoryRead, List.cons_append, List.flatMap_cons, keptDWs_full (full b (by simp)).2]
      rfl

-----------------------------------------------------------------------------------------
-- Which TLPs are memory reads
-----------------------------------------------------------------------------------------

/-- Only `generateDmaReadTLP` hands over read requests. -/
theorem offered_readRequest {s : PcieCtrl} {e : Event} {b : SendTLP}
    (offers : s.offered e = some (.readRequest, b))
    : e = .generateDmaReadTLP := by
  cases e <;>
    simp only [PcieCtrl.offered, Option.bind_eq_bind, Option.pure_def, reduceCtorEq,
      Option.bind_eq_some_iff, Option.some.injEq, Prod.mk.injEq, false_and, and_false,
      exists_false] at offers
  case filterStatReadTLP =>
    obtain ⟨beat, _, offers⟩ := offers
    split at offers
    next => simp [Option.bind_eq_some_iff] at offers
    next => cases offers
  case procIOWrite =>
    obtain ⟨beat, _, offers⟩ := offers
    split at offers <;> cases offers
  case generateDmaReadTLP => rfl
  case generateDataTLP =>
    split at offers
    next => simp [Option.bind_eq_some_iff] at offers
    next => cases offers

/-- A beat of another source than the read requests and the writes is no memory read. -/
theorem offered_noRead {s : PcieCtrl} {e : Event} {source : TlpSource} {b : SendTLP}
    (offers : s.offered e = some (source, b)) (notRead : source ≠ .readRequest)
    (notWrite : source ≠ .write)
    : memoryRead [b] = none := by
  cases e <;>
    simp only [PcieCtrl.offered, Option.bind_eq_bind, Option.pure_def, reduceCtorEq,
      Option.bind_eq_some_iff, Option.some.injEq, Prod.mk.injEq] at offers
  case filterStatReadTLP =>
    obtain ⟨beat, _, offers⟩ := offers
    split at offers
    next read =>
      simp only [Option.bind_eq_some_iff, Option.some.injEq, Prod.mk.injEq] at offers
      obtain ⟨data, _, rfl, rfl⟩ := offers
      exact memoryRead_completionTLP ..
    next => cases offers
  case procIOWrite =>
    obtain ⟨beat, _, offers⟩ := offers
    split at offers
    next io =>
      cases offers
      exact memoryRead_writeCompletionTLP ..
    next => cases offers
  case completeIORead =>
    obtain ⟨_, _, _, _, rfl, rfl⟩ := offers
    exact memoryRead_completionTLP ..
  case generateDmaReadTLP =>
    obtain ⟨_, _, _, _, rfl, _⟩ := offers
    exact absurd rfl notRead
  case dataSend ioreq data =>
    obtain ⟨rfl, rfl⟩ := offers
    exact memoryRead_completionTLP ..
  case generateHeaderTLP =>
    obtain ⟨_, _, _, _, _, _, rfl, _⟩ := offers
    exact absurd rfl notWrite
  case generateDataTLP =>
    split at offers
    next =>
      simp only [Option.bind_eq_some_iff, Option.some.injEq, Prod.mk.injEq] at offers
      obtain ⟨_, _, rfl, _⟩ := offers
      exact absurd rfl notWrite
    next =>
      simp only [Option.some.injEq, Prod.mk.injEq] at offers
      exact absurd offers.1.symm notWrite

/-- What is decoded from TLPs of one source only, out of labelled TLPs; induction on them. -/
theorem filterMap_ofSource {β : Type} {source : TlpSource} {decode : List SendTLP → Option β}
    {order : List (TlpSource × List SendTLP)}
    (other : ∀ entry ∈ order, entry.1 ≠ source → decode entry.2 = none)
    : (order.map Prod.snd).filterMap decode = (ofSource source order).filterMap decode := by
  induction order with
  | nil => rfl
  | cons entry order ih =>
      have later := ih (fun e member => other e (List.mem_cons_of_mem _ member))
      have split : ofSource source (entry :: order)
          = ofSource source [entry] ++ ofSource source order :=
        ofSource_append source [entry] order
      rw [List.map_cons, List.filterMap_cons, later, split, ofSource_singleton,
        List.filterMap_append]
      by_cases mine : entry.1 = source
      · rw [if_pos mine, List.filterMap_cons, List.filterMap_nil]
        cases decode entry.2 <;> rfl
      · rw [if_neg mine, other entry List.mem_cons_self mine]
        rfl

section Runs

variable {p : PowerUp} {state : PcieCtrl × TransmitLog}

/-- In every run a write TLP handed over has two beats at least; induction on the run. -/
theorem writes_long
    (run : Reach (traced PcieCtrl.step TransmitLog.record) anyEvent
      (mkPcieCtrl p, TransmitLog.start) state)
    : ∀ tlp ∈ cutTLPs [] (ofSource .write state.2.offered), 2 ≤ tlp.length := by
  induction run with
  | refl => exact fun tlp member => absurd member List.not_mem_nil
  | @tail before after e earlier _ fires ih =>
      obtain ⟨fired, recorded⟩ := traced_eq_some.mp fires
      rw [recorded]
      by_cases header : e = .generateHeaderTLP
      · subst header
        obtain ⟨_, req, _, bus, _, data, _, _, _, requested, looked, supplied, _, _⟩ :=
          PcieCtrl.generateHeaderTLP_cases fired
        have offers : before.1.offered .generateHeaderTLP
            = some (.write, before.1.writeHeaderOf req bus data) := by
          simp [PcieCtrl.offered, Fifo.first_eq_some.mpr ⟨_, requested⟩,
            Fifo.first_eq_some.mpr ⟨_, looked⟩, Fifo.first_eq_some.mpr ⟨_, supplied⟩]
        have first : ¬(before.1.writeHeaderOf req bus data).last = 1#1 := by
          simp [PcieCtrl.writeHeaderOf, writeHeaderTLP]
        rw [ofSource_write_append before.2 offers, (cutTLPs_concat [] _ _).1, if_neg first,
          List.append_nil]
        exact ih
      · by_cases data : e = .generateDataTLP
        · subst data
          have busy : openTLP [] (ofSource .write before.2.offered) ≠ [] := by
            intro none
            have idle := (handedOver earlier).headed.underWay.mp none
            rcases PcieCtrl.generateDataTLP_cases fired with ⟨more, _⟩ | ⟨some, _⟩
            · rw [idle] at more
              exact absurd more (by decide)
            · rw [idle] at some
              exact absurd some (by decide)
          obtain ⟨b, offers⟩ : ∃ b, before.1.offered .generateDataTLP = some (.write, b) := by
            rcases PcieCtrl.generateDataTLP_cases fired with
              ⟨more, d, _, _, supplied, _, _⟩ | ⟨_, final, _⟩
            · exact ⟨_, by
                simp only [PcieCtrl.offered, if_pos more, Fifo.first_eq_some.mpr ⟨_, supplied⟩]
                rfl⟩
            · exact ⟨writeDataTLP before.1.writes.dmaWriteBuf 0x0fff#16 1#1, by
                simp only [PcieCtrl.offered, if_neg final]⟩
          rw [ofSource_write_append before.2 offers, (cutTLPs_concat [] _ _).1]
          intro tlp member
          rcases List.mem_append.mp member with old | new
          case inl => exact ih tlp old
          case inr =>
            split at new
            next =>
              obtain rfl := List.mem_singleton.mp new
              have positive := List.length_pos_iff.mpr busy
              rw [List.length_append, List.length_singleton]
              omega
            next => cases new
        · rw [ofSource_write_record before.2 header data]
          exact ih

/-- In every run, only read requests are memory reads. -/
theorem offered_reads
    (run : Reach (traced PcieCtrl.step TransmitLog.record) anyEvent
      (mkPcieCtrl p, TransmitLog.start) state)
    : ∀ entry ∈ state.2.offered, entry.1 ≠ .readRequest → entry.1 ≠ .write →
        memoryRead [entry.2] = none := by
  refine run.invariant (P := fun state => ∀ entry ∈ state.2.offered, entry.1 ≠ .readRequest →
    entry.1 ≠ .write → memoryRead [entry.2] = none) ?_ ?_
  · exact fun entry member => absurd member List.not_mem_nil
  · intro before e after inv _ fires entry member notRead notWrite
    obtain ⟨_, recorded⟩ := traced_eq_some.mp fires
    rw [recorded] at member
    rcases List.mem_append.mp member with old | new
    case inl => exact inv entry old notRead notWrite
    case inr => exact offered_noRead (Option.mem_toList.mp new) notRead notWrite

/-- The memory reads sent are the first of those handed over, and all of them once nothing is on its
way to the core.
-/
theorem reads_sent
    (run : Reach (traced PcieCtrl.step TransmitLog.record) anyEvent
      (mkPcieCtrl p, TransmitLog.start) state)
    : ((cutTLPs [] state.2.sent).filterMap memoryRead)
        <+: (ofSource .readRequest state.2.offered).filterMap (fun b => memoryRead [b])
      ∧ (state.1.TransmitDrained →
          (cutTLPs [] state.2.sent).filterMap memoryRead
            = (ofSource .readRequest state.2.offered).filterMap (fun b => memoryRead [b])) := by
  obtain ⟨order, burst, waiting, inv⟩ := multiplexed run
  have handed := handedOver run
  have whole : ∀ t ∈ order.map Prod.snd, WholeTLP t := by
    intro t member
    obtain ⟨entry, inOrder, rfl⟩ := List.mem_map.mp member
    exact inv.whole entry inOrder
  have written : cutTLPs [] (ofSource .write state.2.offered) = ofSource .write order := by
    rw [inv.sources .write, inv.noWrites, List.append_nil]
    refine cutTLPs_flatten (fun t member => ?_) inv.underWay.unfinished
    obtain ⟨entry, inOrder, rfl⟩ := List.mem_map.mp member
    exact inv.whole entry (List.mem_filter.mp inOrder).1
  have others : ∀ entry ∈ order, entry.1 ≠ .readRequest → memoryRead entry.2 = none := by
    intro entry member notRead
    by_cases write : entry.1 = .write
    · refine memoryRead_long (inv.whole entry member) (writes_long run entry.2 ?_)
      rw [written]
      exact List.mem_map.mpr ⟨entry, List.mem_filter.mpr ⟨member, decide_eq_true write⟩, rfl⟩
    · obtain ⟨b, alone, -⟩ := single_order inv handed member write
      have through : b ∈ ofSource entry.1 state.2.offered := by
        rw [inv.sources entry.1]
        refine List.mem_append_left _ (List.mem_append_left _ (List.mem_flatten.mpr ?_))
        exact ⟨entry.2, List.mem_map.mpr
          ⟨entry, List.mem_filter.mpr ⟨member, decide_eq_true rfl⟩, rfl⟩, by simp [alone]⟩
      obtain ⟨offer, offered, rfl⟩ := List.mem_map.mp through
      obtain ⟨found, labelled⟩ := List.mem_filter.mp offered
      have source : offer.1 = entry.1 := of_decide_eq_true labelled
      rw [alone]
      exact offered_reads run offer found (source ▸ notRead) (source ▸ write)
  have singles : ∀ tlp ∈ ofSource .readRequest order, ∃ b, tlp = [b] := by
    intro tlp member
    obtain ⟨entry, inOrder, rfl⟩ := List.mem_map.mp member
    obtain ⟨found, labelled⟩ := List.mem_filter.mp inOrder
    obtain ⟨b, alone, -⟩ := single_order inv handed found
      (by rw [of_decide_eq_true labelled]; decide)
    exact ⟨b, alone⟩
  have reads : (order.map Prod.snd).filterMap memoryRead
      = (ofSource .readRequest order).flatten.filterMap (fun b => memoryRead [b]) := by
    rw [filterMap_ofSource others]
    generalize ofSource .readRequest order = tlps at singles
    induction tlps with
    | nil => rfl
    | cons tlp tlps ih =>
        obtain ⟨b, rfl⟩ := singles tlp List.mem_cons_self
        rw [List.flatten_cons, List.singleton_append, List.filterMap_cons, List.filterMap_cons,
          ih (fun other member => singles other (List.mem_cons_of_mem _ member))]
  have sent := cutTLPs_append [] state.2.sent state.1.tx.sendTLPQ.items
  rw [inv.beats, List.flatMap_def, cutTLPs_flatten whole inv.underWay.unfinished] at sent
  have first := sent.filterMap memoryRead
  rw [reads] at first
  have all := inv.sources .readRequest
  have unmerged : state.1.notMerged burst .readRequest = [] := rfl
  rw [unmerged, List.append_nil] at all
  refine ⟨?_, ?_⟩
  · rw [all, List.filterMap_append]
    exact first.trans (List.prefix_append _ _)
  · rintro ⟨-, noTree, noQueue⟩
    have none : waiting .readRequest = [] := inv.tree.empty noTree 3
    have beats := inv.beats
    rw [noQueue, List.append_nil, List.flatMap_def] at beats
    rw [beats, cutTLPs_flatten whole inv.underWay.unfinished, reads, all, none, List.append_nil]

end Runs

end BluespecPcie

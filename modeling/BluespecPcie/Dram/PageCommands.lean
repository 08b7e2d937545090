import BluespecPcie.Dram.ChainedReads
import BluespecPcie.Dram.PageStreams

/-! `mkDRAMHostDMA`: what the page commands of the host ask for, and the history in which it is
looked for.
-/

namespace BluespecPcie

open Bluespec
open TaggedReads (bufferWords bufferWords_zero bufferWords_chunk)

/-- An entry of `dmaCmdQ`: whether it is from FPGA to host, the host page, the FPGA page and the
number of pages.
-/
abbrev DmaCmd := Bool × BitVec 32 × BitVec 32 × BitVec 32

namespace DmaCmd

/-- Where the host pages are; host offsets have 32 bits. -/
def hostAddr (c : DmaCmd) : BitVec 32 := c.2.1 <<< 12

/-- Where the FPGA pages are. -/
def fpgaAddr (c : DmaCmd) : BitVec 64 := c.2.2.1.setWidth 64 <<< 12

/-- The number of pages. -/
def pages (c : DmaCmd) : Nat := c.2.2.2.toNat

/-- The pages of a command have 32-bit byte counts. -/
def Sized (c : DmaCmd) : Prop := 1 ≤ c.pages ∧ c.pages < 2 ^ 20

instance (c : DmaCmd) : Decidable c.Sized := by
  unfold Sized
  infer_instance

/-- The words of the host pages, in address order. -/
def hostWords (mem : BitVec 32 → DMAWord) (c : DmaCmd) : List DMAWord :=
  (TaggedDma.wordAddrs c.hostAddr (256 * c.pages)).map mem

/-- What the burst writer is to get for a command from host to FPGA: the named DRAM address, and
the words of the host pages.
-/
def fpgaCalls (mem : BitVec 32 → DMAWord) (c : DmaCmd) : List HostDmaCall :=
  .writeReq c.fpgaAddr (BitVec.ofNat 32 (64 * c.pages))
    :: (packWords (c.hostWords mem)).map .write

/-- The DMA writes of a command from FPGA to host, of 128 bytes each. -/
def hostBursts (c : DmaCmd) : List (BitVec 32 × Bool) := pageBursts c.hostAddr (32 * c.pages)

/-- The entry of `dmaReadWordCntQ` for a command from host to FPGA. -/
def wordCount (c : DmaCmd) : BitVec 64 × BitVec 32 := (c.fpgaAddr, c.2.2.2 <<< 8)

/-- The DRAM words of a command. -/
def dramWords (c : DmaCmd) : List (BitVec 64) := dramAddrs c.fpgaAddr (64 * c.pages)

variable {c : DmaCmd}

theorem Sized.bytes (sized : c.Sized) : (c.2.2.2 <<< 12).toNat = 4096 * c.pages := by
  obtain ⟨-, few⟩ := sized
  have bound : c.pages * 2 ^ 12 < 2 ^ 32 := by omega
  rw [BitVec.toNat_shiftLeft, Nat.shiftLeft_eq, ← pages, Nat.mod_eq_of_lt bound]
  omega

theorem Sized.dmaWords (sized : c.Sized) : (c.2.2.2 <<< 8).toNat = 256 * c.pages := by
  obtain ⟨-, few⟩ := sized
  have bound : c.pages * 2 ^ 8 < 2 ^ 32 := by omega
  rw [BitVec.toNat_shiftLeft, Nat.shiftLeft_eq, ← pages, Nat.mod_eq_of_lt bound]
  omega

theorem Sized.dramCount (sized : c.Sized) : (c.2.2.2 <<< 6).toNat = 64 * c.pages := by
  obtain ⟨-, few⟩ := sized
  have bound : c.pages * 2 ^ 6 < 2 ^ 32 := by omega
  rw [BitVec.toNat_shiftLeft, Nat.shiftLeft_eq, ← pages, Nat.mod_eq_of_lt bound]
  omega

/-- The count of DMA words, as the count of DRAM words of the request. -/
theorem Sized.burst (sized : c.Sized) : (c.2.2.2 <<< 8) >>> 2 = BitVec.ofNat 32 (64 * c.pages) := by
  have count := sized.dmaWords
  obtain ⟨-, few⟩ := sized
  apply BitVec.eq_of_toNat_eq
  rw [BitVec.toNat_ushiftRight, count, Nat.shiftRight_eq_div_pow, BitVec.toNat_ofNat,
    Nat.mod_eq_of_lt (by omega)]
  omega

@[simp] theorem length_hostWords (mem : BitVec 32 → DMAWord) (c : DmaCmd)
    : (c.hostWords mem).length = 256 * c.pages := by
  simp [hostWords]

/-- The host pages as a buffer of bytes. -/
theorem Sized.bufferWords (sized : c.Sized) (mem : BitVec 32 → DMAWord)
    : bufferWords mem (c.2.1 <<< 12, c.2.2.2 <<< 12) = c.hostWords mem := by
  have count : (4096 * c.pages + 15) / 16 = 256 * c.pages := by omega
  rw [TaggedReads.bufferWords, sized.bytes, count]
  rfl

end DmaCmd

/-- The commands from host to FPGA. -/
def toFpga (commands : List DmaCmd) : List DmaCmd := commands.filter (fun c => !c.1)

/-- The commands from FPGA to host. -/
def toHost (commands : List DmaCmd) : List DmaCmd := commands.filter (fun c => c.1)

@[simp] theorem toFpga_append (commands more : List DmaCmd)
    : toFpga (commands ++ more) = toFpga commands ++ toFpga more := by
  simp [toFpga]

@[simp] theorem toHost_append (commands more : List DmaCmd)
    : toHost (commands ++ more) = toHost commands ++ toHost more := by
  simp [toHost]

theorem toFpga_cons_toHost {c : DmaCmd} (write : c.1 = true) (commands : List DmaCmd)
    : toFpga (c :: commands) = toFpga commands := by
  simp [toFpga, write]

theorem toFpga_cons_fromHost {c : DmaCmd} (read : c.1 = false) (commands : List DmaCmd)
    : toFpga (c :: commands) = c :: toFpga commands := by
  simp [toFpga, read]

theorem toHost_cons_toHost {c : DmaCmd} (write : c.1 = true) (commands : List DmaCmd)
    : toHost (c :: commands) = c :: toHost commands := by
  simp [toHost, write]

theorem toHost_cons_fromHost {c : DmaCmd} (read : c.1 = false) (commands : List DmaCmd)
    : toHost (c :: commands) = toHost commands := by
  simp [toHost, read]

-----------------------------------------------------------------------------------------
-- The history
-----------------------------------------------------------------------------------------

/-- The commands of the host, the calls of methods that write, and the words read from DRAM. -/
structure PageLog where
  commands : List DmaCmd := []
  calls : List HostDmaCall := []
  reads : DramReadLog := {}

namespace HostDmaCall

/-- The call of the PCIe interface that it is, if it is one. -/
def pcie? : HostDmaCall → Option DmaWriteCall
  | .pcie call => some call
  | _ => none

end HostDmaCall

/-- The calls of the burst writer. -/
def dramwCalls (calls : List HostDmaCall) : List HostDmaCall :=
  calls.filter (fun call => call.pcie?.isNone)

/-- The calls of the PCIe interface. -/
def pcieCalls (calls : List HostDmaCall) : List DmaWriteCall := calls.filterMap HostDmaCall.pcie?

@[simp] theorem dramwCalls_append (calls more : List HostDmaCall)
    : dramwCalls (calls ++ more) = dramwCalls calls ++ dramwCalls more := by
  simp [dramwCalls]

@[simp] theorem pcieCalls_append (calls more : List HostDmaCall)
    : pcieCalls (calls ++ more) = pcieCalls calls ++ pcieCalls more := by
  simp [pcieCalls]

/-- The tags of the PCIe interface and its stores after calls. -/
def tagsAfter (calls : List DmaWriteCall) : TaggedDma.direct.State :=
  calls.foldl (fun s call => (TaggedDma.direct.call s call).getD s) TaggedDma.direct.init

/-- The tags after one more call. -/
theorem tagsAfter_snoc (calls : List DmaWriteCall) (call : DmaWriteCall)
    : tagsAfter (calls ++ [call])
      = (TaggedDma.direct.call (tagsAfter calls) call).getD (tagsAfter calls) := by
  rw [tagsAfter, List.foldl_append]
  rfl

/-- A request comes when no word is lacking under its tag, and a word when one is. -/
def DmaWriteCall.Fits (s : TaggedDma.direct.State) : DmaWriteCall → Prop
  | .dmaWriteReq _ _ tag => TaggedDma.direct.lacks s tag = 0
  | .dmaWriteData _ tag => 0 < TaggedDma.direct.lacks s tag

/-- Every call fits the ones before it. -/
def WellTagged (calls : List DmaWriteCall) : Prop :=
  ∀ earlier call later, calls = earlier ++ call :: later → call.Fits (tagsAfter earlier)

theorem WellTagged.nil : WellTagged [] := by
  intro earlier call later none
  simp at none

theorem WellTagged.snoc {calls : List DmaWriteCall} (tagged : WellTagged calls)
    {call : DmaWriteCall} (fits : call.Fits (tagsAfter calls))
    : WellTagged (calls ++ [call]) := by
  intro earlier other later split
  rcases List.eq_nil_or_concat later with rfl | ⟨before, last, rfl⟩
  case inl =>
    obtain ⟨rfl, isLast⟩ := List.append_inj' split rfl
    obtain rfl := List.singleton_inj.mp isLast
    exact fits
  case inr =>
    rw [List.concat_eq_append, ← List.cons_append, ← List.append_assoc] at split
    obtain ⟨rest, -⟩ := List.append_inj' split rfl
    exact tagged earlier other before rest

/-- What the calls store in host memory. -/
def hostStores (calls : List DmaWriteCall) : List (BitVec 32 × DMAWord) :=
  TaggedDma.direct.stores (tagsAfter calls)

/-- The requests among the calls. -/
def hostRequests (calls : List DmaWriteCall) : List (BitVec 32 × BitVec 10) :=
  calls.filterMap fun
    | .dmaWriteReq addr words _ => some (addr, words)
    | .dmaWriteData _ _ => none

namespace DRAMHostDMA

variable {mem : BitVec 32 → DMAWord}

/-- How an event extends the history. -/
def recordPages (P : TaggedReads mem) (R : BurstReader) (s : DRAMHostDMA × P.State × R.State)
    (e : DRAMHostDMAEvent P.Choice) (log : PageLog) : PageLog where
  commands :=
    match e with
    | .getCmd w => log.commands ++ s.1.commanded w
    | _ => log.commands
  calls :=
    match e with
    | .rule rule => log.calls ++ ((fire P R s rule).map Prod.snd).getD []
    | _ => log.calls
  reads := recordReads P R s e log.reads

/-- The commands are for at least one page and less than 4 GB, and user logic makes no chained
requests.
-/
def PagesOnly {σ χ : Type} (s : (DRAMHostDMA × σ) × PageLog) : DRAMHostDMAEvent χ → Prop
  | .getCmd w => ∀ c ∈ s.1.1.commanded w, DmaCmd.Sized c
  | .chainReq _ _ _ => False
  | _ => True

/-- The chained interface has nothing to do. -/
def Unchained (m : DRAMHostDMA) : Prop :=
  m.chainIoCmdQ.items = [] ∧ m.chainReadWordsLeft = 0 ∧ m.chainWriteWordsLeft = 0

variable {P : TaggedReads mem} {R : BurstReader} {s s' : DRAMHostDMA × P.State × R.State}

/-- The rules of the chained interface do not fire, and the others leave it as it is; none of them
adds a command.
-/
theorem Unchained.fire {rule : DRAMHostDMARule} {made : List HostDmaCall}
    (unchained : s.1.Unchained) (fires : fire P R s rule = some (s', made))
    : s'.1.Unchained
      ∧ s'.1.dmaCmdQ.items ⊆ s.1.dmaCmdQ.items
      ∧ rule ∉ ([.relayChainCmd, .relayChainWrite, .relayChainRead] : List DRAMHostDMARule) := by
  cases rule with
  | relayChainCmd =>
      obtain ⟨⟨⟨write, addr, words⟩, m⟩, fired, -⟩ := Option.bind_eq_some_iff.mp fires
      obtain ⟨-, -, _, first, -⟩ := chainCmd_spec fired
      rw [unchained.1] at first
      cases first
  | relayChainWrite =>
      obtain ⟨m, calls, fired, -⟩ := calling_eq_some fires
      obtain ⟨more, -⟩ := relayChainWrite_spec fired
      rw [unchained.2.2] at more
      cases more
  | relayChainRead =>
      obtain ⟨⟨d, r⟩, -, fires⟩ := Option.bind_eq_some_iff.mp fires
      obtain ⟨m, fired, -⟩ := Option.bind_eq_some_iff.mp fires
      obtain ⟨more, -⟩ := relayChainRead_spec fired
      rw [unchained.2.1] at more
      cases more
  | initDmaTagR | relayDmaReadWords | startReorderRead | reorderRead =>
      obtain ⟨m, fired, ⟨⟩⟩ := plain_eq_some fires
      obtain ⟨reads, -, rfl⟩ := onReads_spec fired
      exact ⟨unchained, List.Subset.refl _, by decide⟩
  | sendDMARead =>
      obtain ⟨⟨tag, m⟩, sent, fires⟩ := Option.bind_eq_some_iff.mp fires
      obtain ⟨p, -, ⟨⟩⟩ := Option.bind_eq_some_iff.mp fires
      obtain ⟨-, -, reads, -, rfl⟩ := sendDMARead_spec sent
      exact ⟨unchained, List.Subset.refl _, by decide⟩
  | getDMARead =>
      obtain ⟨⟨⟨tag, word⟩, p⟩, -, fires⟩ := Option.bind_eq_some_iff.mp fires
      obtain ⟨m, taken, ⟨⟩⟩ := Option.bind_eq_some_iff.mp fires
      obtain ⟨reads, -, rfl⟩ := onReads_spec taken
      exact ⟨unchained, List.Subset.refl _, by decide⟩
  | dramStartBurst =>
      obtain ⟨m, calls, fired, ⟨⟩⟩ := calling_eq_some fires
      obtain ⟨-, _, _, _, -, -, rfl⟩ := dramStartBurst_spec fired
      exact ⟨unchained, List.Subset.refl _, by decide⟩
  | relayDRAMWriteBurst =>
      obtain ⟨m, calls, fired, ⟨⟩⟩ := calling_eq_some fires
      obtain ⟨-, _, _, _, -, -, ⟨-, -, rfl⟩ | ⟨-, -, rfl⟩⟩ := relayDRAMWriteBurst_spec fired
      · exact ⟨unchained, List.Subset.refl _, by decide⟩
      · exact ⟨unchained, List.Subset.refl _, by decide⟩
  | initDmaTagW =>
      obtain ⟨m, fired, ⟨⟩⟩ := plain_eq_some fires
      obtain ⟨-, _, _, -, rfl⟩ := initDmaTagW_spec fired
      exact ⟨unchained, List.Subset.refl _, by decide⟩
  | startDRAMRead =>
      obtain ⟨⟨⟨off, words⟩, m⟩, fired, fires⟩ := Option.bind_eq_some_iff.mp fires
      obtain ⟨r, -, ⟨⟩⟩ := Option.bind_eq_some_iff.mp fires
      obtain ⟨-, _, -, rfl⟩ := startDRAMRead_spec fired
      exact ⟨unchained, List.Subset.refl _, by decide⟩
  | relayDRAMWord =>
      obtain ⟨⟨d, r⟩, -, fires⟩ := Option.bind_eq_some_iff.mp fires
      obtain ⟨m, fired, ⟨⟩⟩ := Option.bind_eq_some_iff.mp fires
      obtain ⟨-, _, -, rfl⟩ := relayDRAMWord_spec fired
      exact ⟨unchained, List.Subset.refl _, by decide⟩
  | genPcieDmaWrite =>
      obtain ⟨m, fired, ⟨⟩⟩ := plain_eq_some fires
      obtain ⟨-, -, _, _, -, -, rfl⟩ := genPcieDmaWrite_spec fired
      exact ⟨unchained, List.Subset.refl _, by decide⟩
  | relayDRAMRead =>
      obtain ⟨m, fired, ⟨⟩⟩ := plain_eq_some fires
      obtain ⟨_, _, _, -, -, -, rfl⟩ := relayDRAMRead_spec fired
      exact ⟨unchained, List.Subset.refl _, by decide⟩
  | sendPcieDmaWrite =>
      obtain ⟨m, calls, fired, ⟨⟩⟩ := calling_eq_some fires
      obtain ⟨-, _, _, _, _, _, _, _, -, -, -, -, -, rfl⟩ := sendPcieDmaWrite_spec fired
      exact ⟨unchained, List.Subset.refl _, by decide⟩
  | splitDRAMWord =>
      obtain ⟨m, calls, fired, ⟨⟩⟩ := calling_eq_some fires
      obtain ⟨-, _, _, -, ⟨-, _, _, -, -, rfl⟩ | ⟨-, -, rfl⟩⟩ := splitDRAMWord_spec fired
      · exact ⟨unchained, List.Subset.refl _, by decide⟩
      · exact ⟨unchained, List.Subset.refl _, by decide⟩
  | accDRAMBurstDone =>
      obtain ⟨m, fired, ⟨⟩⟩ := plain_eq_some fires
      obtain ⟨_, _, -, rfl⟩ := accDRAMBurstDone_spec fired
      exact ⟨unchained, List.Subset.refl _, by decide⟩
  | accDRAMBurstRDone =>
      obtain ⟨m, fired, ⟨⟩⟩ := plain_eq_some fires
      obtain ⟨_, _, -, rfl⟩ := accDRAMBurstRDone_spec fired
      exact ⟨unchained, List.Subset.refl _, by decide⟩
  | procCmd =>
      obtain ⟨m, fired, ⟨⟩⟩ := plain_eq_some fires
      obtain ⟨-, -, _, _, _, _, dmaCmdQ, first, done⟩ := procCmd_spec fired
      rw [first]
      rcases done with ⟨-, _, -, rfl⟩ | ⟨-, _, -, rfl⟩
      · exact ⟨unchained, List.subset_cons_self .., by decide⟩
      · exact ⟨unchained, List.subset_cons_self .., by decide⟩

/-- What the module does with page commands. `read` are the words that the burst reader returned
for the named DRAM addresses.
-/
structure PagesMoved (mem : BitVec 32 → DMAWord) (m : DRAMHostDMA) (log : PageLog) : Prop where
  /-- The burst writer gets the words of the named host pages at the named DRAM addresses. -/
  fpga : dramwCalls log.calls <+: (toFpga log.commands).flatMap (DmaCmd.fpgaCalls mem)
  /-- The burst reader is asked for the named DRAM words. -/
  read : log.reads.hostTaken.map Prod.fst <+: (toHost log.commands).flatMap DmaCmd.dramWords
  /-- The DMA writes are for the named host pages, 128 bytes each. -/
  requests
    : hostRequests (pcieCalls log.calls)
      <+: ((toHost log.commands).flatMap DmaCmd.hostBursts).map (fun burst => (burst.1, 8))
  /-- Each word comes under the tag of a request that lacks it. -/
  tagged : WellTagged (pcieCalls log.calls)
  /-- They store the words read at the addresses of the named host pages. -/
  host
    : hostStores (pcieCalls log.calls)
      <+: (burstWords ((toHost log.commands).flatMap DmaCmd.hostBursts)).zip
        ((log.reads.hostTaken.map Prod.snd).flatMap splitWord)
  /-- A command from host to FPGA is counted when the burst writer has its last word. -/
  fpgaDone
    : m.dramWriteBurstDoneCount.toNat ≤ (toFpga log.commands).length
      ∧ ((toFpga log.commands).take m.dramWriteBurstDoneCount.toNat).flatMap
          (DmaCmd.fpgaCalls mem)
        <+: dramwCalls log.calls
  /-- A command from FPGA to host is counted when its last word is stored. -/
  hostDone
    : m.dramReadBurstDoneCount.toNat ≤ (toHost log.commands).length
      ∧ burstWords (((toHost log.commands).take m.dramReadBurstDoneCount.toNat).flatMap
          DmaCmd.hostBursts)
        <+: (hostStores (pcieCalls log.calls)).map Prod.fst

end DRAMHostDMA

end BluespecPcie

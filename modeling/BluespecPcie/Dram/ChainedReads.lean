import BluespecPcie.Dram.HostDMAReads

/-! `mkDRAMHostDMA`: host commands and the chained interface share one burst reader. Its words have
no tags, and the two consumers are kept apart by `dramBurstReadLeft` and `chainReadWordsLeft`.
-/

namespace BluespecPcie

open Bluespec

/-- What host commands and chained requests ask for, and the words that each of them gets, with
where the reader has them from.
-/
structure DramReadLog where
  hostAsked : List (BitVec 64) := []
  chainAsked : List (BitVec 64) := []
  hostTaken : List (BitVec 64 × BitVec 512) := []
  chainTaken : List (BitVec 64 × BitVec 512) := []
  chainRead : List (BitVec 512) := []

namespace DRAMHostDMA

variable {mem : BitVec 32 → DMAWord} {P : TaggedReads mem} {R : BurstReader}

-----------------------------------------------------------------------------------------
-- The history
-----------------------------------------------------------------------------------------

/-- The DRAM words of a host command, 64 of each page, if it is one from FPGA to host. -/
def commandAddrs (c : Bool × BitVec 32 × BitVec 32 × BitVec 32) : List (BitVec 64) :=
  if c.1 = true then dramAddrs (c.2.2.1.setWidth 64 <<< 12) (c.2.2.2 <<< 6).toNat else []

/-- The DRAM words of a chained request, if it is a read. -/
def chainAddrs (c : Bool × BitVec 64 × BitVec 32) : List (BitVec 64) :=
  if c.1 = true then [] else dramAddrs c.2.1 c.2.2.toNat

/-- The command that `getCmd` makes of a write. -/
def commanded (m : DRAMHostDMA) (w : IOWrite) : List (Bool × BitVec 32 × BitVec 32 × BitVec 32) :=
  if w.addr >>> 2 = 258 then [(false, m.hostMemTemp, m.fpgaMemTemp, w.data)]
  else if w.addr >>> 2 = 259 then [(true, m.hostMemTemp, m.fpgaMemTemp, w.data)]
  else []

/-- The next word of the reader, with where it is from. -/
def nextWord (R : BurstReader) (r : R.State) : List (BitVec 64 × BitVec 512) :=
  ((R.owes r).head?.toList).zip ((R.read r).map Prod.fst).toList

/-- How an event extends the history. -/
def recordReads (P : TaggedReads mem) (R : BurstReader) (s : DRAMHostDMA × P.State × R.State)
    (e : DRAMHostDMAEvent P.Choice) (log : DramReadLog) : DramReadLog :=
  match e with
  | .getCmd w => { log with hostAsked := log.hostAsked ++ (s.1.commanded w).flatMap commandAddrs }
  | .chainReq write addr words =>
      { log with chainAsked := log.chainAsked ++ chainAddrs (write, addr, words) }
  | .rule .relayDRAMWord => { log with hostTaken := log.hostTaken ++ nextWord R s.2.2 }
  | .rule .relayChainRead => { log with chainTaken := log.chainTaken ++ nextWord R s.2.2 }
  | .chainRead => { log with chainRead := log.chainRead ++ (s.1.chainRead.map Prod.fst).toList }
  | _ => log

/-- A burst of a host command starts only when no word of a chained read is still to come. -/
def ChainDrained {σ χ : Type} (s : (DRAMHostDMA × σ) × DramReadLog) : DRAMHostDMAEvent χ → Prop
  | .rule .startDRAMRead =>
      s.1.1.chainReadWordsLeft = 0
      ∨ ∀ burst ∈ s.1.1.dramReadWordCntQ.first, burst.2 = 0
  | _ => True

/-- Each side has got the words that it asked for, in order, as far as they are delivered. -/
structure OwnWords (m : DRAMHostDMA) (log : DramReadLog) : Prop where
  host : log.hostTaken.map Prod.fst <+: log.hostAsked
  chain : log.chainTaken.map Prod.fst <+: log.chainAsked
  delivered : log.chainRead ++ m.chainReadQ.items = log.chainTaken.map Prod.snd

-----------------------------------------------------------------------------------------
-- The invariant
-----------------------------------------------------------------------------------------

/-- What the two sides depend on. -/
def readSide (m : DRAMHostDMA)
    : BitVec 32 × BitVec 32 × List (BitVec 64 × BitVec 32)
      × List (Bool × BitVec 32 × BitVec 32 × BitVec 32) × List (Bool × BitVec 64 × BitVec 32)
      × List (BitVec 512) :=
  (m.dramBurstReadLeft, m.chainReadWordsLeft, m.dramReadWordCntQ.items, m.dmaCmdQ.items,
    m.chainIoCmdQ.items, m.chainReadQ.items)

/-- The reader owes the words of the host burst in progress, and behind them those of the chained
read in progress.
-/
structure Apart (m : DRAMHostDMA) (owed : List (BitVec 64)) (log : DramReadLog)
    (host chain : List (BitVec 64)) : Prop where
  owed : owed = host ++ chain
  hostLeft : m.dramBurstReadLeft.toNat = host.length
  chainLeft : m.chainReadWordsLeft.toNat = chain.length
  hostWords
    : log.hostTaken.map Prod.fst ++ host
        ++ m.dramReadWordCntQ.items.flatMap (fun burst => dramAddrs burst.1 burst.2.toNat)
        ++ m.dmaCmdQ.items.flatMap commandAddrs
      = log.hostAsked
  chainWords
    : log.chainTaken.map Prod.fst ++ chain ++ m.chainIoCmdQ.items.flatMap chainAddrs
      = log.chainAsked
  delivered : log.chainRead ++ m.chainReadQ.items = log.chainTaken.map Prod.snd

variable {m m' : DRAMHostDMA} {owed owed' host chain : List (BitVec 64)} {log : DramReadLog}
variable {d : BitVec 512}

theorem Apart.init : Apart mkDRAMHostDMA [] {} [] [] :=
  ⟨rfl, rfl, rfl, rfl, rfl, rfl⟩

/-- What changes neither side keeps the invariant. -/
theorem Apart.frame (apart : Apart m owed log host chain) (same : m'.readSide = m.readSide)
    : Apart m' owed log host chain := by
  obtain ⟨words, hostLeft, chainLeft, hostWords, chainWords, delivered⟩ := apart
  simp only [readSide, Prod.mk.injEq] at same
  obtain ⟨burst, chained, bursts, commands, requests, output⟩ := same
  refine ⟨words, ?_, ?_, ?_, ?_, ?_⟩
  · rwa [burst]
  · rwa [chained]
  · rwa [bursts, commands]
  · rwa [requests]
  · rwa [output]

/-- The words that a reader owes, once it has returned the next of them. -/
theorem nextWord_eq {r r' : R.State} (taken : R.read r = some (d, r'))
    : ∃ addr, R.owes r = addr :: R.owes r' ∧ nextWord R r = [(addr, d)] := by
  obtain ⟨addr, owes⟩ := R.of_read taken
  refine ⟨addr, owes, ?_⟩
  rw [nextWord, owes, taken]
  rfl

/-- A burst of a host command, when no chained word is to come or the burst has none. -/
theorem Apart.startDRAMRead (apart : Apart m owed log host chain) {off : BitVec 64}
    {words : BitVec 32} (drained : m.chainReadWordsLeft = 0 ∨ words = 0)
    (fires : m.startDRAMRead = some ((off, words), m'))
    : ∃ host', Apart m' (owed ++ dramAddrs off words.toNat) log host' chain := by
  obtain ⟨rfl, hostLeft, chainLeft, hostWords, chainWords, delivered⟩ := apart
  obtain ⟨idle, dramReadWordCntQ, first, rfl⟩ := startDRAMRead_spec fires
  obtain rfl : host = [] := by
    rw [idle] at hostLeft
    exact List.eq_nil_of_length_eq_zero hostLeft.symm
  refine ⟨dramAddrs off words.toNat, ?_, by simp [dramAddrs], chainLeft, ?_, chainWords, delivered⟩
  · rcases drained with none | none
    case inl =>
      rw [none] at chainLeft
      obtain rfl := List.eq_nil_of_length_eq_zero chainLeft.symm
      simp
    case inr =>
      subst none
      simp [dramAddrs]
  · rw [first, List.flatMap_cons] at hostWords
    rw [← hostWords]
    simp only [List.append_nil, List.append_assoc]

/-- A host word is taken: it is the next of the host burst. -/
theorem Apart.relayDRAMWord {r r' : R.State} (apart : Apart m (R.owes r) log host chain)
    (taken : R.read r = some (d, r')) (fires : m.relayDRAMWord d = some m')
    : ∃ host',
        Apart m' (R.owes r') { log with hostTaken := log.hostTaken ++ nextWord R r }
          host' chain := by
  obtain ⟨words, hostLeft, chainLeft, hostWords, chainWords, delivered⟩ := apart
  obtain ⟨some, dramReadWordQ, -, rfl⟩ := relayDRAMWord_spec fires
  obtain ⟨addr, owes, next⟩ := nextWord_eq taken
  rw [next]
  cases host with
  | nil =>
      have none : m.dramBurstReadLeft = 0 := BitVec.eq_of_toNat_eq hostLeft
      exact absurd some (by rw [none]; exact BitVec.lt_irrefl _)
  | cons first later =>
      obtain ⟨rfl, rest⟩ := List.cons.inj (owes.symm.trans words)
      refine ⟨later, rest, ?_, chainLeft, ?_, chainWords, delivered⟩
      · change (m.dramBurstReadLeft - 1).toNat = later.length
        rw [List.length_cons] at hostLeft
        bv_omega
      · rw [← hostWords]
        simp

/-- A chained word is taken, the host burst being over: it is the next of the chained read. -/
theorem Apart.relayChainRead {r r' : R.State} (apart : Apart m (R.owes r) log host chain)
    (taken : R.read r = some (d, r')) (fires : m.relayChainRead d = some m')
    : ∃ chain',
        Apart m' (R.owes r') { log with chainTaken := log.chainTaken ++ nextWord R r }
          host chain' := by
  obtain ⟨words, hostLeft, chainLeft, hostWords, chainWords, delivered⟩ := apart
  obtain ⟨some, idle, chainReadQ, added, rfl⟩ := relayChainRead_spec fires
  obtain ⟨addr, owes, next⟩ := nextWord_eq taken
  rw [next]
  obtain rfl : host = [] := by
    rw [idle] at hostLeft
    exact List.eq_nil_of_length_eq_zero hostLeft.symm
  cases chain with
  | nil =>
      have none : m.chainReadWordsLeft = 0 := BitVec.eq_of_toNat_eq chainLeft
      exact absurd some (by rw [none]; exact BitVec.lt_irrefl _)
  | cons first later =>
      obtain ⟨rfl, rest⟩ := List.cons.inj (owes.symm.trans words)
      refine ⟨later, rest, hostLeft, ?_, hostWords, ?_, ?_⟩
      · change (m.chainReadWordsLeft - 1).toNat = later.length
        rw [List.length_cons] at chainLeft
        bv_omega
      · rw [← chainWords]
        simp
      · rw [added, ← List.append_assoc, delivered, List.map_append]
        rfl

/-- A chained request is taken up; a read waits behind the host burst. -/
theorem Apart.chainCmd (apart : Apart m owed log host chain) {write : Bool} {addr : BitVec 64}
    {words : BitVec 32} (fires : m.chainCmd = some ((write, addr, words), m'))
    : ∃ chain',
        Apart m' (owed ++ chainAddrs (write, addr, words)) log host chain' := by
  obtain ⟨rfl, hostLeft, chainLeft, hostWords, chainWords, delivered⟩ := apart
  obtain ⟨idle, -, chainIoCmdQ, first, rfl⟩ := chainCmd_spec fires
  obtain rfl : chain = [] := by
    rw [idle] at chainLeft
    exact List.eq_nil_of_length_eq_zero chainLeft.symm
  rw [first, List.flatMap_cons] at chainWords
  cases write with
  | true =>
      refine ⟨[], ?_, hostLeft, chainLeft, hostWords, ?_, delivered⟩
      · simp [chainAddrs]
      · rw [← chainWords]
        simp [chainAddrs]
  | false =>
      refine ⟨dramAddrs addr words.toNat, ?_, hostLeft, ?_, hostWords, ?_, delivered⟩
      · simp [chainAddrs]
      · simp [dramAddrs]
      · rw [← chainWords]
        simp [chainAddrs]

/-- A host command becomes a burst. -/
theorem Apart.procCmd (apart : Apart m owed log host chain) (fires : m.procCmd = some m')
    : Apart m' owed log host chain := by
  obtain ⟨words, hostLeft, chainLeft, hostWords, chainWords, delivered⟩ := apart
  obtain ⟨-, -, write, hostpage, fpgapage, pages, dmaCmdQ, first, done⟩ := procCmd_spec fires
  rw [first, List.flatMap_cons] at hostWords
  rcases done with ⟨rfl, dramReadWordCntQ, added, rfl⟩ | ⟨rfl, dmaReadWordCntQ, -, rfl⟩
  case inl =>
    refine ⟨words, hostLeft, chainLeft, ?_, chainWords, delivered⟩
    rw [← hostWords, added, List.flatMap_append]
    simp [commandAddrs]
  case inr =>
    refine ⟨words, hostLeft, chainLeft, ?_, chainWords, delivered⟩
    rw [← hostWords]
    simp [commandAddrs]

/-- A command of the host is queued. -/
theorem Apart.getCmd (apart : Apart m owed log host chain) {w : IOWrite}
    (fires : m.getCmd w = some m')
    : Apart m' owed
        { log with hostAsked := log.hostAsked ++ (m.commanded w).flatMap commandAddrs }
        host chain := by
  obtain ⟨words, hostLeft, chainLeft, hostWords, chainWords, delivered⟩ := apart
  obtain ⟨_, _, dmaCmdQ, _, rfl, queued⟩ := getCmd_spec fires
  refine ⟨words, hostLeft, chainLeft, ?_, chainWords, delivered⟩
  rw [queued, List.flatMap_append, ← List.append_assoc, hostWords]
  rfl

/-- A chained request is queued. -/
theorem Apart.chainReq (apart : Apart m owed log host chain) {write : Bool} {addr : BitVec 64}
    {words : BitVec 32} (fires : m.chainReq write addr words = some m')
    : Apart m' owed
        { log with chainAsked := log.chainAsked ++ chainAddrs (write, addr, words) }
        host chain := by
  obtain ⟨owes, hostLeft, chainLeft, hostWords, chainWords, delivered⟩ := apart
  obtain ⟨chainIoCmdQ, added, rfl⟩ := chainReq_spec fires
  refine ⟨owes, hostLeft, chainLeft, hostWords, ?_, delivered⟩
  rw [added, List.flatMap_append, ← List.append_assoc, chainWords]
  simp

/-- The user reads a chained word. -/
theorem Apart.chainRead (apart : Apart m owed log host chain)
    (fires : m.chainRead = some (d, m'))
    : Apart m' owed { log with chainRead := log.chainRead ++ [d] } host chain := by
  obtain ⟨words, hostLeft, chainLeft, hostWords, chainWords, delivered⟩ := apart
  obtain ⟨chainReadQ, first, rfl⟩ := chainRead_spec fires
  refine ⟨words, hostLeft, chainLeft, hostWords, chainWords, ?_⟩
  rw [← delivered, first]
  simp

-----------------------------------------------------------------------------------------
-- Runs
-----------------------------------------------------------------------------------------

/-- The rules that neither side depends on. -/
theorem fire_frame {rule : DRAMHostDMARule} {s s' : DRAMHostDMA × P.State × R.State}
    {calls : List HostDmaCall}
    (other
      : rule ∉ ([.startDRAMRead, .relayDRAMWord, .procCmd, .relayChainCmd, .relayChainRead]
          : List DRAMHostDMARule))
    (fires : fire P R s rule = some (s', calls))
    : s'.1.readSide = s.1.readSide ∧ s'.2.2 = s.2.2 := by
  cases rule with
  | startDRAMRead | relayDRAMWord | procCmd | relayChainCmd | relayChainRead =>
      simp at other
  | initDmaTagR | relayDmaReadWords | startReorderRead | reorderRead =>
      obtain ⟨m, fired, ⟨⟩⟩ := plain_eq_some fires
      obtain ⟨reads, -, rfl⟩ := onReads_spec fired
      exact ⟨rfl, rfl⟩
  | sendDMARead =>
      obtain ⟨⟨tag, m⟩, sent, fires⟩ := Option.bind_eq_some_iff.mp fires
      obtain ⟨p, -, ⟨⟩⟩ := Option.bind_eq_some_iff.mp fires
      obtain ⟨-, -, reads, -, rfl⟩ := sendDMARead_spec sent
      exact ⟨rfl, rfl⟩
  | getDMARead =>
      obtain ⟨⟨⟨tag, word⟩, p⟩, -, fires⟩ := Option.bind_eq_some_iff.mp fires
      obtain ⟨m, taken, ⟨⟩⟩ := Option.bind_eq_some_iff.mp fires
      obtain ⟨reads, -, rfl⟩ := onReads_spec taken
      exact ⟨rfl, rfl⟩
  | dramStartBurst =>
      obtain ⟨m, calls, fired, ⟨⟩⟩ := calling_eq_some fires
      obtain ⟨-, _, _, _, -, -, rfl⟩ := dramStartBurst_spec fired
      exact ⟨rfl, rfl⟩
  | relayDRAMWriteBurst =>
      obtain ⟨m, calls, fired, ⟨⟩⟩ := calling_eq_some fires
      obtain ⟨-, _, _, _, -, -, ⟨-, -, rfl⟩ | ⟨-, -, rfl⟩⟩ := relayDRAMWriteBurst_spec fired
      · exact ⟨rfl, rfl⟩
      · exact ⟨rfl, rfl⟩
  | initDmaTagW =>
      obtain ⟨m, fired, ⟨⟩⟩ := plain_eq_some fires
      obtain ⟨-, _, _, -, rfl⟩ := initDmaTagW_spec fired
      exact ⟨rfl, rfl⟩
  | genPcieDmaWrite =>
      obtain ⟨m, fired, ⟨⟩⟩ := plain_eq_some fires
      obtain ⟨-, -, _, _, -, -, rfl⟩ := genPcieDmaWrite_spec fired
      exact ⟨rfl, rfl⟩
  | relayDRAMRead =>
      obtain ⟨m, fired, ⟨⟩⟩ := plain_eq_some fires
      obtain ⟨_, _, _, -, -, -, rfl⟩ := relayDRAMRead_spec fired
      exact ⟨rfl, rfl⟩
  | sendPcieDmaWrite =>
      obtain ⟨m, calls, fired, ⟨⟩⟩ := calling_eq_some fires
      obtain ⟨-, _, _, _, _, _, _, _, -, -, -, -, -, rfl⟩ := sendPcieDmaWrite_spec fired
      exact ⟨rfl, rfl⟩
  | splitDRAMWord =>
      obtain ⟨m, calls, fired, ⟨⟩⟩ := calling_eq_some fires
      obtain ⟨-, _, _, -, ⟨-, _, _, -, -, rfl⟩ | ⟨-, -, rfl⟩⟩ := splitDRAMWord_spec fired
      · exact ⟨rfl, rfl⟩
      · exact ⟨rfl, rfl⟩
  | accDRAMBurstDone =>
      obtain ⟨m, fired, ⟨⟩⟩ := plain_eq_some fires
      obtain ⟨_, _, -, rfl⟩ := accDRAMBurstDone_spec fired
      exact ⟨rfl, rfl⟩
  | accDRAMBurstRDone =>
      obtain ⟨m, fired, ⟨⟩⟩ := plain_eq_some fires
      obtain ⟨_, _, -, rfl⟩ := accDRAMBurstRDone_spec fired
      exact ⟨rfl, rfl⟩
  | relayChainWrite =>
      obtain ⟨m, calls, fired, ⟨⟩⟩ := calling_eq_some fires
      obtain ⟨-, -, _, _, -, -, rfl⟩ := relayChainWrite_spec fired
      exact ⟨rfl, rfl⟩

/-- Some words of each side are owed, the host's first. -/
def KeptApart (R : BurstReader) {σ : Type} (s : DRAMHostDMA × σ × R.State) (log : DramReadLog)
    : Prop :=
  ∃ host chain, Apart s.1 (R.owes s.2.2) log host chain

variable {s s' : DRAMHostDMA × P.State × R.State}

/-- A rule keeps the sides apart. -/
theorem KeptApart.fire {rule : DRAMHostDMARule} {calls : List HostDmaCall}
    (kept : KeptApart R s log)
    (drained : ChainDrained (s, log) (.rule rule : DRAMHostDMAEvent P.Choice))
    (fires : fire P R s rule = some (s', calls))
    : KeptApart R s' (recordReads P R s (.rule rule) log) := by
  obtain ⟨host, chain, apart⟩ := kept
  cases rule with
  | startDRAMRead =>
      obtain ⟨⟨⟨off, words⟩, m⟩, fired, fires⟩ := Option.bind_eq_some_iff.mp fires
      obtain ⟨r, accepted, ⟨⟩⟩ := Option.bind_eq_some_iff.mp fires
      have none : s.1.chainReadWordsLeft = 0 ∨ words = 0 := by
        refine drained.imp_right (fun empty => ?_)
        obtain ⟨-, _, first, -⟩ := startDRAMRead_spec fired
        exact empty (off, words) (Fifo.first_eq_some.mpr ⟨_, first⟩)
      obtain ⟨host', apart⟩ := apart.startDRAMRead none fired
      rw [← R.of_readReq accepted] at apart
      exact ⟨host', chain, apart⟩
  | relayDRAMWord =>
      obtain ⟨⟨d, r⟩, taken, fires⟩ := Option.bind_eq_some_iff.mp fires
      obtain ⟨m, fired, ⟨⟩⟩ := Option.bind_eq_some_iff.mp fires
      obtain ⟨host', apart⟩ := apart.relayDRAMWord taken fired
      exact ⟨host', chain, apart⟩
  | procCmd =>
      obtain ⟨m, fired, ⟨⟩⟩ := plain_eq_some fires
      exact ⟨host, chain, apart.procCmd fired⟩
  | relayChainCmd =>
      obtain ⟨⟨⟨write, addr, words⟩, m⟩, fired, fires⟩ := Option.bind_eq_some_iff.mp fires
      obtain ⟨chain', apart⟩ := apart.chainCmd fired
      cases write with
      | true =>
          cases fires
          rw [chainAddrs, if_pos rfl, List.append_nil] at apart
          exact ⟨host, chain', apart⟩
      | false =>
          obtain ⟨r, accepted, ⟨⟩⟩ := Option.bind_eq_some_iff.mp fires
          rw [chainAddrs, if_neg Bool.false_ne_true, ← R.of_readReq accepted] at apart
          exact ⟨host, chain', apart⟩
  | relayChainRead =>
      obtain ⟨⟨d, r⟩, taken, fires⟩ := Option.bind_eq_some_iff.mp fires
      obtain ⟨m, fired, ⟨⟩⟩ := Option.bind_eq_some_iff.mp fires
      obtain ⟨chain', apart⟩ := apart.relayChainRead taken fired
      exact ⟨host, chain', apart⟩
  | _ =>
      obtain ⟨same, reader⟩ := fire_frame (by decide) fires
      refine ⟨host, chain, ?_⟩
      rw [reader]
      exact apart.frame same

/-- A step keeps the sides apart. -/
theorem KeptApart.step {e : DRAMHostDMAEvent P.Choice} (kept : KeptApart R s log)
    (drained : ChainDrained (s, log) e) (fires : step P R s e = some s')
    : KeptApart R s' (recordReads P R s e log) := by
  cases e with
  | rule rule =>
      obtain ⟨⟨_, calls⟩, fired, rfl⟩ := Option.map_eq_some_iff.mp fires
      exact kept.fire drained fired
  | getCmd w =>
      obtain ⟨host, chain, apart⟩ := kept
      obtain ⟨m, fired, rfl⟩ := Option.map_eq_some_iff.mp fires
      exact ⟨host, chain, apart.getCmd fired⟩
  | pcie choice =>
      obtain ⟨p, -, rfl⟩ := Option.map_eq_some_iff.mp fires
      exact kept
  | reader =>
      obtain ⟨host, chain, apart⟩ := kept
      obtain ⟨r, moved, rfl⟩ := Option.map_eq_some_iff.mp fires
      rw [← R.of_internal moved] at apart
      exact ⟨host, chain, apart⟩
  | dataReceive =>
      obtain ⟨host, chain, apart⟩ := kept
      obtain ⟨⟨w, m⟩, fired, rfl⟩ := Option.map_eq_some_iff.mp fires
      obtain ⟨_, rfl⟩ := dataReceive_spec fired
      exact ⟨host, chain, apart.frame rfl⟩
  | chainReq write addr words =>
      obtain ⟨host, chain, apart⟩ := kept
      obtain ⟨m, fired, rfl⟩ := Option.map_eq_some_iff.mp fires
      exact ⟨host, chain, apart.chainReq fired⟩
  | chainWrite word =>
      obtain ⟨host, chain, apart⟩ := kept
      obtain ⟨m, fired, rfl⟩ := Option.map_eq_some_iff.mp fires
      obtain ⟨_, rfl⟩ := chainWrite_spec fired
      exact ⟨host, chain, apart.frame rfl⟩
  | chainRead =>
      obtain ⟨host, chain, apart⟩ := kept
      obtain ⟨⟨d, m⟩, fired, rfl⟩ := Option.map_eq_some_iff.mp fires
      have isRead : s.1.chainRead = some (d, m) := fired
      refine ⟨host, chain, ?_⟩
      rw [recordReads, isRead]
      exact apart.chainRead fired

/-- Host commands and chained reads get their own words, in order, in runs that start no host burst
while a chained word is still to come.
-/
theorem reads_own_words (mem : BitVec 32 → DMAWord) (P : TaggedReads mem) (R : BurstReader)
    (state : (DRAMHostDMA × P.State × R.State) × DramReadLog)
    (run
      : Reach (traced (step P R) (recordReads P R)) ChainDrained
          ((mkDRAMHostDMA, P.init, R.init), {}) state)
    : OwnWords state.1.1 state.2 := by
  obtain ⟨host, chain, apart⟩ : KeptApart R state.1 state.2 := by
    refine run.invariant (P := fun state => KeptApart R state.1 state.2) ?_ ?_
    · exact ⟨[], [], R.owes_init ▸ .init⟩
    · intro s e s' kept drained fires
      obtain ⟨fired, recorded⟩ := traced_eq_some.mp fires
      rw [recorded]
      exact kept.step drained fired
  refine ⟨?_, ?_, apart.delivered⟩
  · rw [← apart.hostWords, List.append_assoc, List.append_assoc]
    exact List.prefix_append _ _
  · rw [← apart.chainWords, List.append_assoc]
    exact List.prefix_append _ _

-----------------------------------------------------------------------------------------
-- Two schedules
-----------------------------------------------------------------------------------------

/-- A DRAM in which each word is its own address. -/
def ownAddress (addr : BitVec 64) : BitVec 512 := addr.setWidth 512

/-- The host commands that one page from FPGA page 2 on is copied. -/
def pageCommanded : List (DRAMHostDMAEvent (BitVec 8)) :=
  [.getCmd ⟨1028, 2⟩, .getCmd ⟨1036, 1⟩, .rule .procCmd]

/-- Two chained words are requested and delivered, then the host burst starts. -/
def chainThenPage : List (DRAMHostDMAEvent (BitVec 8)) :=
  [.chainReq false 4096 2, .rule .relayChainCmd] ++ pageCommanded
    ++ [.reader, .rule .relayChainRead, .reader, .rule .relayChainRead, .rule .startDRAMRead,
      .reader, .rule .relayDRAMWord, .chainRead]

/-- The user does not read: 16 of 18 chained words are in `chainReadQ`, the last two in the output
queue of the reader, when the host burst starts.
-/
def chainStalls : List (DRAMHostDMAEvent (BitVec 8)) :=
  [.chainReq false 4096 18, .rule .relayChainCmd]
    ++ (List.replicate 16 [.reader, .rule .relayChainRead]).flatten ++ [.reader, .reader]
    ++ pageCommanded ++ [.rule .startDRAMRead, .rule .relayDRAMWord]

/-- The modules and interfaces of the schedules, after reset. -/
def atReset
    : (DRAMHostDMA × (TaggedReads.anyOrder TaggedReads.addressed).State
        × (BurstReader.queued ownAddress).State) × DramReadLog :=
  ((mkDRAMHostDMA, (TaggedReads.anyOrder TaggedReads.addressed).init,
    (BurstReader.queued ownAddress).init), {})

/-- Where the words are from that each side got, and what the user has read. -/
def takenFrom {σ : Type} (state : σ × DramReadLog)
    : List (BitVec 64) × List (BitVec 64) × List (BitVec 512) :=
  (state.2.hostTaken.map Prod.fst, state.2.chainTaken.map Prod.fst, state.2.chainRead)

instance {σ χ : Type} (s : (DRAMHostDMA × σ) × DramReadLog) (e : DRAMHostDMAEvent χ)
    : Decidable (ChainDrained s e) := by
  cases e with
  | rule rule =>
      cases rule with
      | startDRAMRead =>
          exact inferInstanceAs
            (Decidable (_ ∨ ∀ burst ∈ s.1.1.dramReadWordCntQ.first, burst.2 = 0))
      | _ => exact isTrue trivial
  | _ => exact isTrue trivial

/-- A run in which both sides get their words. -/
theorem reads_own_words_chainThenPage
    : ∃ state : (DRAMHostDMA × (TaggedReads.anyOrder TaggedReads.addressed).State
          × (BurstReader.queued ownAddress).State) × DramReadLog,
        takenFrom state = ([8192], [4096, 4160], [4096])
        ∧ OwnWords state.1.1 state.2 := by
  obtain ⟨state, run, seen⟩ := exec_reach_map
    (traced (step (.anyOrder TaggedReads.addressed) (.queued ownAddress))
      (recordReads (.anyOrder TaggedReads.addressed) (.queued ownAddress)))
    ChainDrained atReset chainThenPage takenFrom ([8192], [4096, 4160], [4096])
    (by decide +kernel)
  exact ⟨state, seen, reads_own_words TaggedReads.addressed (.anyOrder TaggedReads.addressed)
    (.queued ownAddress) state run⟩

/-- A run in which the host burst takes a chained word. -/
theorem host_takes_chained_word
    : ¬ ∀ (mem : BitVec 32 → DMAWord) (P : TaggedReads mem) (R : BurstReader)
        (state : (DRAMHostDMA × P.State × R.State) × DramReadLog),
        Reach (traced (step P R) (recordReads P R)) anyEvent
          ((mkDRAMHostDMA, P.init, R.init), {}) state
        → OwnWords state.1.1 state.2 := by
  intro always
  obtain ⟨state, run, seen⟩ := exec_reach_map
    (traced (step (.anyOrder TaggedReads.addressed) (.queued ownAddress))
      (recordReads (.anyOrder TaggedReads.addressed) (.queued ownAddress)))
    anyEvent atReset chainStalls
    (fun state => ((takenFrom state).1, state.2.hostAsked.head?)) ([5120], some 8192)
    (by decide +kernel)
  have own := always TaggedReads.addressed (.anyOrder TaggedReads.addressed) (.queued ownAddress)
    state run
  obtain ⟨taken, asked⟩ := Prod.mk.inj seen
  have first := own.host
  rw [show state.2.hostTaken.map Prod.fst = [5120] from taken] at first
  obtain ⟨rest, isFirst⟩ := first
  rw [← isFirst] at asked
  cases asked

end DRAMHostDMA

end BluespecPcie

import BluespecPcie.Dram.FpgaToHost
import BluespecPcie.Dram.HostToFpga

/-! `mkDRAMHostDMA` moves the pages of its commands, in both directions at once. -/

namespace BluespecPcie

open Bluespec

namespace DRAMHostDMA

variable {mem : BitVec 32 → DMAWord} {P : TaggedReads mem} {R : BurstReader}

/-- Both directions, the reader that they share with the chained interface, and the commands. -/
structure Pages (P : TaggedReads mem) (R : BurstReader) (s : DRAMHostDMA × P.State × R.State)
    (log : PageLog) : Prop where
  sized : ∀ c ∈ log.commands, DmaCmd.Sized c
  queued : ∀ c ∈ s.1.dmaCmdQ.items, DmaCmd.Sized c
  unchained : s.1.Unchained
  asked : log.reads.hostAsked = log.commands.flatMap commandAddrs
  reader : KeptApart R s log.reads
  fpga : FpgaSide mem P s.1 s.2.1 log.commands log.calls
  host : ∃ w, HostSide s.1 log.commands (pcieCalls log.calls) (hostWordsTaken log.reads) w

variable {s s' : DRAMHostDMA × P.State × R.State} {log : PageLog}

theorem Pages.init (P : TaggedReads mem) (R : BurstReader)
    : Pages P R (mkDRAMHostDMA, P.init, R.init) {} := by
  refine ⟨nofun, nofun, ⟨rfl, rfl, rfl⟩, rfl, ⟨[], [], R.owes_init ▸ .init⟩, ?_, _, .init⟩
  exact ⟨[], ⟨[], [], [], [], []⟩, .init P, .init⟩

/-- A rule keeps both directions. -/
theorem Pages.fire {rule : DRAMHostDMARule} {made : List HostDmaCall} (pages : Pages P R s log)
    (fires : fire P R s rule = some (s', made))
    : Pages P R s'
        ⟨log.commands, log.calls ++ made, recordReads P R s (.rule rule) log.reads⟩ := by
  obtain ⟨sized, queued, unchained, asked, reader, fpga, w, host⟩ := pages
  obtain ⟨unchained', fewer, -⟩ := unchained.fire fires
  refine ⟨sized, fun c member => queued c (fewer member), unchained', ?_, ?_,
    fpga.fire unchained queued fires, ?_⟩
  · rw [← asked]
    cases rule <;> rfl
  · refine reader.fire ?_ fires
    cases rule with
    | startDRAMRead => exact .inl unchained.2.1
    | _ => trivial
  · rw [pcieCalls_append]
    exact host.fire unchained queued fires

/-- A step with page commands only keeps both directions. -/
theorem Pages.step {e : DRAMHostDMAEvent P.Choice} (pages : Pages P R s log)
    (only : PagesOnly (s, log) e) (fires : step P R s e = some s')
    : Pages P R s' (recordPages P R s e log) := by
  cases e with
  | rule rule =>
      obtain ⟨⟨_, made⟩, fired, rfl⟩ := Option.map_eq_some_iff.mp fires
      rw [recordPages, fired]
      exact pages.fire fired
  | chainReq write addr words => exact only.elim
  | getCmd word =>
      obtain ⟨sized, queued, unchained, asked, reader, fpga, w, host⟩ := pages
      have reader := reader.step (e := .getCmd word) trivial fires
      obtain ⟨m, fired, rfl⟩ := Option.map_eq_some_iff.mp fires
      obtain ⟨due, work, words, writes⟩ := fpga
      have writes := writes.getCmd fired
      have host := host.getCmd fired
      obtain ⟨_, _, dmaCmdQ, _, rfl, added⟩ := getCmd_spec fired
      refine ⟨?_, ?_, unchained, ?_, reader, ⟨due, work, words, writes⟩, w, host⟩
      · intro c member
        rcases List.mem_append.mp member with old | new
        · exact sized c old
        · exact only c new
      · intro c member
        rcases List.mem_append.mp (added ▸ member) with old | new
        · exact queued c old
        · exact only c new
      · change log.reads.hostAsked ++ _ = (log.commands ++ _).flatMap commandAddrs
        rw [asked, List.flatMap_append]
  | pcie choice =>
      obtain ⟨sized, queued, unchained, asked, reader, fpga, host⟩ := pages
      have reader := reader.step (e := .pcie choice) trivial fires
      obtain ⟨p, moved, rfl⟩ := Option.map_eq_some_iff.mp fires
      obtain ⟨due, work, words, writes⟩ := fpga
      refine ⟨sized, queued, unchained, asked, reader, ⟨due, work, ?_, writes⟩, host⟩
      exact words.onReads words.range (P.of_internal moved ▸ words.lined) rfl
  | reader =>
      obtain ⟨sized, queued, unchained, asked, reader, fpga, host⟩ := pages
      have reader := reader.step (e := .reader) trivial fires
      obtain ⟨r, -, rfl⟩ := Option.map_eq_some_iff.mp fires
      exact ⟨sized, queued, unchained, asked, reader, fpga, host⟩
  | dataReceive =>
      obtain ⟨sized, queued, unchained, asked, reader, ⟨due, work, words, writes⟩, w, host⟩ := pages
      have reader := reader.step (e := .dataReceive) trivial fires
      obtain ⟨⟨_, m⟩, fired, rfl⟩ := Option.map_eq_some_iff.mp fires
      obtain ⟨_, rfl⟩ := dataReceive_spec fired
      exact ⟨sized, queued, unchained, asked, reader,
        ⟨due, work, words, writes.still rfl⟩, w,
        host.frame (.inl rfl) rfl⟩
  | chainWrite word =>
      obtain ⟨sized, queued, unchained, asked, reader, ⟨due, work, words, writes⟩, w, host⟩ := pages
      have reader := reader.step (e := .chainWrite word) trivial fires
      obtain ⟨m, fired, rfl⟩ := Option.map_eq_some_iff.mp fires
      obtain ⟨_, rfl⟩ := chainWrite_spec fired
      exact ⟨sized, queued, unchained, asked, reader,
        ⟨due, work, words, writes.still rfl⟩, w,
        host.frame (.inl rfl) rfl⟩
  | chainRead =>
      obtain ⟨sized, queued, unchained, asked, reader, ⟨due, work, words, writes⟩, w, host⟩ := pages
      have reader := reader.step (e := .chainRead) trivial fires
      obtain ⟨⟨_, m⟩, fired, rfl⟩ := Option.map_eq_some_iff.mp fires
      obtain ⟨_, -, rfl⟩ := chainRead_spec fired
      exact ⟨sized, queued, unchained, asked, reader,
        ⟨due, work, words, writes.still rfl⟩, w,
        host.frame (.inl rfl) rfl⟩

/-- The DRAM words of sized commands. -/
theorem commandAddrs_eq {commands : List DmaCmd} (sized : ∀ c ∈ commands, DmaCmd.Sized c)
    : commands.flatMap commandAddrs = (toHost commands).flatMap DmaCmd.dramWords := by
  induction commands with
  | nil => rfl
  | cons c rest ih =>
      have later := ih (fun other member => sized other (List.mem_cons_of_mem _ member))
      have count := (sized c (List.mem_cons_self ..)).dramCount
      rw [List.flatMap_cons, later]
      cases write : c.1 with
      | true =>
          rw [toHost_cons_toHost write, List.flatMap_cons, commandAddrs, if_pos write, count]
          rfl
      | false =>
          rw [toHost_cons_fromHost write, commandAddrs, write]
          rfl

/-- Pages are moved faithfully in every run with page commands only. -/
theorem pages_moved (mem : BitVec 32 → DMAWord) (P : TaggedReads mem) (R : BurstReader)
    (state : (DRAMHostDMA × P.State × R.State) × PageLog)
    (run
      : Reach (traced (step P R) (recordPages P R)) PagesOnly
          ((mkDRAMHostDMA, P.init, R.init), {}) state)
    : PagesMoved mem state.1.1 state.2 := by
  have pages : Pages P R state.1 state.2 := by
    refine run.invariant (P := fun state => Pages P R state.1 state.2) (.init P R) ?_
    intro s e s' kept only fires
    obtain ⟨fired, recorded⟩ := traced_eq_some.mp fires
    rw [recorded]
    exact kept.step only fired
  obtain ⟨sized, -, -, asked, ⟨owed, chain, apart⟩, fpga, w, host⟩ := pages
  obtain ⟨fpgaCalls, fpgaCount, fpgaDone⟩ := fpga.moved
  have tagged := host.sent.tagged
  obtain ⟨requests, stores, hostCount, hostDone⟩ := host.moved sized
  refine ⟨fpgaCalls, ?_, requests, tagged, stores, ⟨fpgaCount, fpgaDone⟩, ⟨hostCount, hostDone⟩⟩
  rw [← commandAddrs_eq sized, ← asked, ← apart.hostWords, List.append_assoc, List.append_assoc]
  exact List.prefix_append _ _

-----------------------------------------------------------------------------------------
-- A schedule for each direction
-----------------------------------------------------------------------------------------

instance {σ χ : Type} (s : (DRAMHostDMA × σ) × PageLog) (e : DRAMHostDMAEvent χ)
    : Decidable (PagesOnly s e) := by
  apply DRAMHostDMAEvent.casesOn (motive := fun e => Decidable (PagesOnly s e)) e
  case getCmd => exact fun word => List.decidableBAll DmaCmd.Sized (s.1.1.commanded word)
  case chainReq => exact fun _ _ _ => isFalse id
  all_goals
    intros
    exact isTrue trivial

/-- The modules and interfaces of the schedules, after reset. -/
def pagesAtReset
    : (DRAMHostDMA × (TaggedReads.anyOrder TaggedReads.addressed).State
        × (BurstReader.queued ownAddress).State) × PageLog :=
  ((mkDRAMHostDMA, (TaggedReads.anyOrder TaggedReads.addressed).init,
    (BurstReader.queued ownAddress).init), {})

/-- Host page 1 is to go to FPGA page 2: the first chunk comes from the host and is written. -/
def chunkToFpga : List (DRAMHostDMAEvent (BitVec 8)) :=
  [.getCmd ⟨1024, 1⟩, .getCmd ⟨1028, 2⟩, .getCmd ⟨1032, 1⟩, .rule .procCmd]
    ++ List.replicate 16 (.rule .initDmaTagR) ++ [.rule .sendDMARead]
    ++ (List.replicate 8 [.rule .getDMARead, .rule .relayDmaReadWords]).flatten
    ++ [.rule .startReorderRead] ++ List.replicate 7 (.rule .reorderRead)
    ++ [.rule .dramStartBurst] ++ List.replicate 8 (.rule .relayDRAMWriteBurst)

/-- FPGA page 2 is to go to host page 1: the first burst is read from DRAM and stored. -/
def burstToHost : List (DRAMHostDMAEvent (BitVec 8)) :=
  [.getCmd ⟨1024, 1⟩, .getCmd ⟨1028, 2⟩, .getCmd ⟨1036, 1⟩, .rule .procCmd]
    ++ List.replicate 32 (.rule .initDmaTagW) ++ [.rule .startDRAMRead]
    ++ (List.replicate 2 [.reader, .rule .relayDRAMWord, .rule .relayDRAMRead]).flatten
    ++ [.rule .genPcieDmaWrite, .rule .sendPcieDmaWrite]
    ++ List.replicate 8 (.rule .splitDRAMWord)

/-- The words that the burst writer has got, and the addresses of the stores in host memory. -/
def movedWords {σ : Type} (state : σ × PageLog) : List (BitVec 512) × List (BitVec 32) :=
  (state.2.calls.filterMap fun
    | .write word => some word
    | _ => none,
    (hostStores (pcieCalls state.2.calls)).map Prod.fst)

/-- A run in each direction. -/
theorem pages_moved_eachWay
    : (∃ state : (DRAMHostDMA × (TaggedReads.anyOrder TaggedReads.addressed).State
            × (BurstReader.queued ownAddress).State) × PageLog,
          movedWords state
            = ([joinWords 4096 4112 4128 4144, joinWords 4160 4176 4192 4208], [])
          ∧ PagesMoved TaggedReads.addressed state.1.1 state.2)
      ∧ ∃ state : (DRAMHostDMA × (TaggedReads.anyOrder TaggedReads.addressed).State
            × (BurstReader.queued ownAddress).State) × PageLog,
          movedWords state = ([], [4096, 4112, 4128, 4144, 4160, 4176, 4192, 4208])
          ∧ PagesMoved TaggedReads.addressed state.1.1 state.2 := by
  refine ⟨?_, ?_⟩
  · obtain ⟨state, run, seen⟩ := exec_reach_map
      (traced (step (.anyOrder TaggedReads.addressed) (.queued ownAddress))
        (recordPages (.anyOrder TaggedReads.addressed) (.queued ownAddress)))
      PagesOnly pagesAtReset chunkToFpga movedWords
      ([joinWords 4096 4112 4128 4144, joinWords 4160 4176 4192 4208], []) (by decide +kernel)
    exact ⟨state, seen, pages_moved TaggedReads.addressed (.anyOrder TaggedReads.addressed)
      (.queued ownAddress) state run⟩
  · obtain ⟨state, run, seen⟩ := exec_reach_map
      (traced (step (.anyOrder TaggedReads.addressed) (.queued ownAddress))
        (recordPages (.anyOrder TaggedReads.addressed) (.queued ownAddress)))
      PagesOnly pagesAtReset burstToHost movedWords
      ([], [4096, 4112, 4128, 4144, 4160, 4176, 4192, 4208]) (by decide +kernel)
    exact ⟨state, seen, pages_moved TaggedReads.addressed (.anyOrder TaggedReads.addressed)
      (.queued ownAddress) state run⟩

end DRAMHostDMA

end BluespecPcie

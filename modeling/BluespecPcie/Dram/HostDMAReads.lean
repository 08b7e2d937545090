import BluespecPcie.Dram.HostDMARules

/-! `mkDRAMHostDMA`: its read tags over the runs of the whole module. -/

namespace BluespecPcie

open Bluespec

namespace DRAMHostDMA

variable {mem : BitVec 32 → DMAWord} {P : TaggedReads mem} {R : BurstReader}

/-- The tag of the word that an event takes from the PCIe interface. -/
def arriving (P : TaggedReads mem) (R : BurstReader) (s : DRAMHostDMA × P.State × R.State)
    : DRAMHostDMAEvent P.Choice → Option (BitVec 8)
  | .rule .getDMARead => (P.dmaReadWord s.2.1).map (fun d => d.1.1)
  | _ => none

/-- A word is taken from the PCIe interface only when the queue of its tag has room for it, now or
once words that have arrived are taken out.
-/
def WordsFit (P : TaggedReads mem) (R : BurstReader) (s : DRAMHostDMA × P.State × R.State)
    (e : DRAMHostDMAEvent P.Choice) : Prop :=
  ∀ tag ∈ arriving P R s e, s.1.reads.WordFits tag

instance (P : TaggedReads mem) (R : BurstReader) (s : DRAMHostDMA × P.State × R.State)
    (e : DRAMHostDMAEvent P.Choice) : Decidable (WordsFit P R s e) := by
  unfold WordsFit
  infer_instance

variable {s s' : DRAMHostDMA × P.State × R.State}

/-- A rule that makes no calls, from its action. -/
theorem plain_eq_some {σ : Type} {s : DRAMHostDMA × σ} {m : Option DRAMHostDMA}
    {done : (DRAMHostDMA × σ) × List HostDmaCall} (fires : plain s m = some done)
    : ∃ next, m = some next ∧ done = ((next, s.2), []) := by
  obtain ⟨next, fired, rfl⟩ := Option.map_eq_some_iff.mp fires
  exact ⟨next, fired, rfl⟩

/-- A rule that makes calls, from its action. -/
theorem calling_eq_some {σ : Type} {s : DRAMHostDMA × σ}
    {m : Option (DRAMHostDMA × List HostDmaCall)}
    {done : (DRAMHostDMA × σ) × List HostDmaCall} (fires : calling s m = some done)
    : ∃ next calls, m = some (next, calls) ∧ done = ((next, s.2), calls) := by
  obtain ⟨⟨next, calls⟩, fired, rfl⟩ := Option.map_eq_some_iff.mp fires
  exact ⟨next, calls, fired, rfl⟩

/-- A rule takes the read tags one step on, if at all. -/
theorem fire_reads {rule : DRAMHostDMARule} {calls : List HostDmaCall}
    (fires : fire P R s rule = some (s', calls))
    : ReadReorder.Step (arriving P R s (.rule rule)) s.1.reads s'.1.reads := by
  cases rule with
  | initDmaTagR =>
      obtain ⟨m, fired, ⟨⟩⟩ := plain_eq_some fires
      obtain ⟨reads, moved, rfl⟩ := onReads_spec fired
      exact .initDmaTagR moved
  | sendDMARead =>
      obtain ⟨⟨tag, m⟩, sent, fires⟩ := Option.bind_eq_some_iff.mp fires
      obtain ⟨p, -, ⟨⟩⟩ := Option.bind_eq_some_iff.mp fires
      obtain ⟨-, -, reads, chunk, rfl⟩ := sendDMARead_spec sent
      exact .sendChunk chunk
  | getDMARead =>
      obtain ⟨⟨⟨tag, word⟩, p⟩, returned, fires⟩ := Option.bind_eq_some_iff.mp fires
      obtain ⟨m, taken, ⟨⟩⟩ := Option.bind_eq_some_iff.mp fires
      obtain ⟨reads, fired, rfl⟩ := onReads_spec taken
      exact .getDMARead (by rw [arriving, returned]; rfl) fired
  | relayDmaReadWords =>
      obtain ⟨m, fired, ⟨⟩⟩ := plain_eq_some fires
      obtain ⟨reads, moved, rfl⟩ := onReads_spec fired
      exact .relayDmaReadWords moved
  | startReorderRead =>
      obtain ⟨m, fired, ⟨⟩⟩ := plain_eq_some fires
      obtain ⟨reads, moved, rfl⟩ := onReads_spec fired
      exact .startReorderRead moved
  | reorderRead =>
      obtain ⟨m, fired, ⟨⟩⟩ := plain_eq_some fires
      obtain ⟨reads, moved, rfl⟩ := onReads_spec fired
      exact .reorderRead moved
  | dramStartBurst =>
      obtain ⟨m, calls, fired, ⟨⟩⟩ := calling_eq_some fires
      obtain ⟨-, _, _, _, -, -, rfl⟩ := dramStartBurst_spec fired
      exact .same rfl
  | relayDRAMWriteBurst =>
      obtain ⟨m, calls, fired, ⟨⟩⟩ := calling_eq_some fires
      obtain ⟨-, word, reads, _, taken, -, ⟨-, -, rfl⟩ | ⟨-, -, rfl⟩⟩ :=
        relayDRAMWriteBurst_spec fired
      · exact .takeWord taken
      · exact .takeWord taken
  | initDmaTagW =>
      obtain ⟨m, fired, ⟨⟩⟩ := plain_eq_some fires
      obtain ⟨-, _, _, -, rfl⟩ := initDmaTagW_spec fired
      exact .same rfl
  | startDRAMRead =>
      obtain ⟨⟨⟨off, words⟩, m⟩, fired, fires⟩ := Option.bind_eq_some_iff.mp fires
      obtain ⟨r, -, ⟨⟩⟩ := Option.bind_eq_some_iff.mp fires
      obtain ⟨-, _, -, rfl⟩ := startDRAMRead_spec fired
      exact .same rfl
  | relayDRAMWord =>
      obtain ⟨⟨d, r⟩, -, fires⟩ := Option.bind_eq_some_iff.mp fires
      obtain ⟨m, fired, ⟨⟩⟩ := Option.bind_eq_some_iff.mp fires
      obtain ⟨-, _, -, rfl⟩ := relayDRAMWord_spec fired
      exact .same rfl
  | genPcieDmaWrite =>
      obtain ⟨m, fired, ⟨⟩⟩ := plain_eq_some fires
      obtain ⟨-, -, _, _, -, -, rfl⟩ := genPcieDmaWrite_spec fired
      exact .same rfl
  | relayDRAMRead =>
      obtain ⟨m, fired, ⟨⟩⟩ := plain_eq_some fires
      obtain ⟨_, _, _, -, -, -, rfl⟩ := relayDRAMRead_spec fired
      exact .same rfl
  | sendPcieDmaWrite =>
      obtain ⟨m, calls, fired, ⟨⟩⟩ := calling_eq_some fires
      obtain ⟨-, _, _, _, _, _, _, _, -, -, -, -, -, rfl⟩ := sendPcieDmaWrite_spec fired
      exact .same rfl
  | splitDRAMWord =>
      obtain ⟨m, calls, fired, ⟨⟩⟩ := calling_eq_some fires
      obtain ⟨-, _, _, -, ⟨-, _, _, -, -, rfl⟩ | ⟨-, -, rfl⟩⟩ := splitDRAMWord_spec fired
      · exact .same rfl
      · exact .same rfl
  | accDRAMBurstDone =>
      obtain ⟨m, fired, ⟨⟩⟩ := plain_eq_some fires
      obtain ⟨_, _, -, rfl⟩ := accDRAMBurstDone_spec fired
      exact .same rfl
  | accDRAMBurstRDone =>
      obtain ⟨m, fired, ⟨⟩⟩ := plain_eq_some fires
      obtain ⟨_, _, -, rfl⟩ := accDRAMBurstRDone_spec fired
      exact .same rfl
  | procCmd =>
      obtain ⟨m, fired, ⟨⟩⟩ := plain_eq_some fires
      obtain ⟨-, -, _, _, _, _, _, -, ⟨-, _, -, rfl⟩ | ⟨-, _, -, rfl⟩⟩ := procCmd_spec fired
      · exact .same rfl
      · exact .same rfl
  | relayChainCmd =>
      obtain ⟨⟨⟨write, addr, words⟩, m⟩, fired, fires⟩ := Option.bind_eq_some_iff.mp fires
      obtain ⟨-, -, _, -, rfl⟩ := chainCmd_spec fired
      cases write with
      | true =>
          cases fires
          exact .same rfl
      | false =>
          obtain ⟨r, -, ⟨⟩⟩ := Option.bind_eq_some_iff.mp fires
          exact .same rfl
  | relayChainWrite =>
      obtain ⟨m, calls, fired, ⟨⟩⟩ := calling_eq_some fires
      obtain ⟨-, -, _, _, -, -, rfl⟩ := relayChainWrite_spec fired
      exact .same rfl
  | relayChainRead =>
      obtain ⟨⟨d, r⟩, -, fires⟩ := Option.bind_eq_some_iff.mp fires
      obtain ⟨m, fired, ⟨⟩⟩ := Option.bind_eq_some_iff.mp fires
      obtain ⟨-, -, _, -, rfl⟩ := relayChainRead_spec fired
      exact .same rfl

/-- An event takes the read tags one step on, if at all. -/
theorem reads_step {e : DRAMHostDMAEvent P.Choice} (fires : step P R s e = some s')
    : ReadReorder.Step (arriving P R s e) s.1.reads s'.1.reads := by
  cases e with
  | rule rule =>
      obtain ⟨⟨_, calls⟩, fired, rfl⟩ := Option.map_eq_some_iff.mp fires
      exact fire_reads fired
  | getCmd w =>
      obtain ⟨m, fired, rfl⟩ := Option.map_eq_some_iff.mp fires
      obtain ⟨_, _, _, _, rfl, -⟩ := getCmd_spec fired
      exact .same rfl
  | pcie choice =>
      obtain ⟨p, -, rfl⟩ := Option.map_eq_some_iff.mp fires
      exact .same rfl
  | reader =>
      obtain ⟨r, -, rfl⟩ := Option.map_eq_some_iff.mp fires
      exact .same rfl
  | dataReceive =>
      obtain ⟨⟨w, m⟩, fired, rfl⟩ := Option.map_eq_some_iff.mp fires
      obtain ⟨_, rfl⟩ := dataReceive_spec fired
      exact .same rfl
  | chainReq write addr words =>
      obtain ⟨m, fired, rfl⟩ := Option.map_eq_some_iff.mp fires
      obtain ⟨_, -, rfl⟩ := chainReq_spec fired
      exact .same rfl
  | chainWrite word =>
      obtain ⟨m, fired, rfl⟩ := Option.map_eq_some_iff.mp fires
      obtain ⟨_, rfl⟩ := chainWrite_spec fired
      exact .same rfl
  | chainRead =>
      obtain ⟨⟨d, m⟩, fired, rfl⟩ := Option.map_eq_some_iff.mp fires
      obtain ⟨_, -, rfl⟩ := chainRead_spec fired
      exact .same rfl

/-- Words that wait have room once the words before them are in their queues. -/
theorem reads_flow (run : Reach (step P R) (WordsFit P R) (mkDRAMHostDMA, P.init, R.init) s)
    : s.1.reads.Flows := by
  have both
      : s.1.reads.InRange ∧ s.1.reads.Flows :=
    run.invariant (P := fun state => state.1.reads.InRange ∧ state.1.reads.Flows) ⟨.init, .init⟩
      (fun kept fits fires => ⟨(reads_step fires).inRange (by decide) kept.1,
        (reads_step fires).flows (by decide) kept.1 fits kept.2⟩)
  exact both.2

end DRAMHostDMA

end BluespecPcie

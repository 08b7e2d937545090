import BluespecPcie.PcieCtrl.Step

/-! Which parts of the state each event may change. -/

namespace BluespecPcie

open Bluespec

/-- The parts of `PcieCtrl`. -/
inductive Part where
  | rx | io | tags | pages | reads | bursts | order | reorder | writes | tx
deriving DecidableEq

/-- The parts an event may write. -/
def Event.parts : Event → List Part
  | .recvTLP _ => [.rx]
  | .procCompletionTLP => [.rx, .bursts]
  | .filterStatReadTLP => [.rx, .bursts, .tx]
  | .procTLP => [.rx, .pages, .io]
  | .relayUserReadQ0 | .relayUserReadQ1 => [.io]
  | .completeIORead => [.io, .pages, .tx]
  | .procIOWrite => [.rx, .io, .pages, .tx]
  | .relayUserWriteQ | .relayUserWrite2Q | .dataReceive | .dataReq => [.io]
  | .insertFreeTag | .relayFreeReadTag => [.tags]
  | .relayBufIdxRead => [.pages]
  | .dmaReadReq _ _ | .splitDmaReadReq => [.reads]
  | .splitDmaReadReq2 => [.tags, .reads, .bursts, .pages]
  | .generateDmaReadTLP => [.reads, .pages, .order, .tx]
  | .relayReadBurst | .updateReadBurst1 | .getTagMapReadA | .updateReadBurst2
  | .relayDmaReadrQ => [.bursts]
  | .writeReadBuffer => [.bursts, .reorder]
  | .applyDoneMap => [.bursts, .order]
  | .procDoneShift | .doneShifterStage _ | .shiftOrder | .forwardShiftOrderTagBypass
  | .forwardShifted | .orderShifterStage _ | .compareOrder | .reqDoneTag
  | .forwardDoneTag => [.order]
  | .flushReadTag => [.order, .reorder, .tags]
  | .flushReadOrdered | .relayFlushReadOrdered | .dmaReadWord => [.reorder]
  | .dmaWriteReq _ _ | .dmaWriteData _ | .splitDmaWriteReq => [.writes]
  | .relayFreeWriteTag => [.tags, .writes]
  | .splitDmaWriteReq2 => [.writes, .pages]
  | .generateHeaderTLP => [.writes, .pages, .tx]
  | .generateDataTLP => [.writes, .tags, .tx]
  | .relayTLPm | .relayTLP | .relayUserSendTLP | .dataSend _ _ | .sendTLPmRule _ => [.tx]

/-- Only the listed parts may differ. -/
structure Unchanged (parts : List Part) (s s' : PcieCtrl) : Prop where
  cfg_completer_id : s'.cfg_completer_id = s.cfg_completer_id
  rx : .rx ∉ parts → s'.rx = s.rx
  io : .io ∉ parts → s'.io = s.io
  tags : .tags ∉ parts → s'.tags = s.tags
  pages : .pages ∉ parts → s'.pages = s.pages
  reads : .reads ∉ parts → s'.reads = s.reads
  bursts : .bursts ∉ parts → s'.bursts = s.bursts
  order : .order ∉ parts → s'.order = s.order
  reorder : .reorder ∉ parts → s'.reorder = s.reorder
  writes : .writes ∉ parts → s'.writes = s.writes
  tx : .tx ∉ parts → s'.tx = s.tx

/-- A record update of the listed parts changes nothing else. -/
theorem Unchanged.of_same {parts : List Part} (s : PcieCtrl) : Unchanged parts s s := by
  constructor <;> intros <;> rfl

open PcieCtrl in
/-- An event writes only its own parts; witness: each rule ends in a record update.
The rules with inner branches are taken apart by their own case lemmas.
-/
theorem step_unchanged {s s' : PcieCtrl} {e : Event} (fires : s.step e = some s')
    : Unchanged e.parts s s' := by
  cases e
  case filterStatReadTLP =>
    obtain ⟨_, _, _, _, _, _, _, ⟨_, _, _, _, _, rfl⟩ | ⟨_, _, _, _, rfl⟩
      | ⟨_, _, _, _, _, _, rfl⟩⟩ := filterStatReadTLP_cases fires
    all_goals
      constructor <;>
        first | rfl | exact fun _ => rfl | exact fun written => absurd (by decide) written
  case procTLP =>
    obtain ⟨_, _, _, _, ⟨_, _, _, _, _, _, rfl⟩ | ⟨_, _, _, _, rfl⟩ | ⟨_, _, _, _, rfl⟩
      | ⟨_, _, rfl⟩⟩ := procTLP_cases fires
    all_goals
      constructor <;>
        first | rfl | exact fun _ => rfl | exact fun written => absurd (by decide) written
  case procIOWrite =>
    obtain ⟨_, _, _, _, _, ⟨_, rfl⟩ | ⟨_, _, rfl⟩ | ⟨_, _, _, _, rfl⟩⟩ :=
      procIOWrite_cases fires
    all_goals
      constructor <;>
        first | rfl | exact fun _ => rfl | exact fun written => absurd (by decide) written
  case relayBufIdxRead =>
    obtain ⟨_, _, _, _, _, _, ⟨_, _, _, rfl⟩ | ⟨_, _, _, rfl⟩⟩ := relayBufIdxRead_cases fires
    all_goals
      constructor <;>
        first | rfl | exact fun _ => rfl | exact fun written => absurd (by decide) written
  case updateReadBurst1 =>
    obtain ⟨_, rfl | ⟨_, _, _, _, _, _, _, _, _, _, rfl⟩⟩ := updateReadBurst1_cases fires
    · exact .of_same _
    · constructor <;>
        first | rfl | exact fun _ => rfl | exact fun written => absurd (by decide) written
  case compareOrder =>
    obtain rfl | ⟨_, _, _, _, _, rfl⟩ | ⟨_, _, _, _, _, _, _, _, _, rfl⟩ :=
      compareOrder_cases fires
    · exact .of_same _
    all_goals
      constructor <;>
        first | rfl | exact fun _ => rfl | exact fun written => absurd (by decide) written
  case generateHeaderTLP =>
    obtain ⟨_, _, _, _, _, _, _, _, _, _, _, _, _, rfl⟩ := generateHeaderTLP_cases fires
    constructor <;>
      first | rfl | exact fun _ => rfl | exact fun written => absurd (by decide) written
  all_goals
    revert fires
    simp only [step, Event.parts, recvTLP, procCompletionTLP, relayUserReadQ0,
      relayUserReadQ1, completeIORead, relayUserWriteQ, relayUserWrite2Q, dataReceive,
      dataReq, insertFreeTag, relayFreeReadTag, dmaReadReq, splitDmaReadReq,
      splitDmaReadReq2, generateDmaReadTLP, relayReadBurst, getTagMapReadA,
      updateReadBurst2, relayDmaReadrQ, writeReadBuffer, applyDoneMap, procDoneShift,
      doneShifterStage, shiftOrder, forwardShiftOrderTagBypass, forwardShifted,
      orderShifterStage, reqDoneTag, forwardDoneTag, flushReadTag, flushReadOrdered,
      relayFlushReadOrdered, dmaReadWord, dmaWriteReq, dmaWriteData, splitDmaWriteReq,
      relayFreeWriteTag, splitDmaWriteReq2, generateDataTLP, relayTLPm, relayTLP,
      relayUserSendTLP, dataSend, sendTLPmRule, Option.bind_eq_bind, Option.pure_def]
  all_goals (repeat' split)
  all_goals
    simp only [Option.bind_some, Option.map_eq_some_iff,
      Option.bind_eq_some_iff, Option.some.injEq, reduceCtorEq, false_implies,
      forall_exists_index, and_imp]
  all_goals (intros; subst_vars)
  all_goals
    constructor <;>
      first | rfl | exact fun _ => rfl | exact fun written => absurd (by decide) written

end BluespecPcie

import BluespecPcie.PcieCtrl.Frames

/-! The transmit side step by step: which source hands over which beat, and what is sent. -/

namespace BluespecPcie

open Bluespec

/-- Where the TLPs come from: the users of the merge tree, and the write generator, which
writes to the send queue itself.
-/
inductive TlpSource where
  | status | ioWrite | config | readRequest | user | write
deriving DecidableEq

/-- The port of the merge tree a source is wired to. -/
def TlpSource.port : TlpSource → Option Nat
  | .status => some 0
  | .ioWrite => some 1
  | .config => some 2
  | .readRequest => some 3
  | .user => some 5
  | .write => none

namespace PcieCtrl

/-- The beat an event hands over to the transmit side, with its source. -/
def offered (s : PcieCtrl) : Event → Option (TlpSource × SendTLP)
  | .filterStatReadTLP => do
      let tlp ← s.rx.tlpQ.first
      if isRead (tlpType tlp) then
        let data ← s.statusRegister ((requestAddr tlp).truncate 20)
        return (.status, s.statusCompletion tlp data)
      else none
  | .procIOWrite => do
      let tlp ← s.rx.tlp3Q.first
      if tlpType tlp = type_wr32_io then return (.ioWrite, s.ioWriteCompletion tlp) else none
  | .completeIORead => do
      let ioreq ← s.io.ioReadQ.first
      let v ← s.pages.configBuffer.respA.first
      return (.config, s.configCompletion ioreq v)
  | .generateDmaReadTLP => do
      let req ← s.reads.dmaPageReadReqQ.first
      let busAddr ← s.pages.dmaReadBufAddrQ.first
      return (.readRequest, s.readRequestOf req busAddr)
  | .dataSend ioreq data => some (.user, s.userCompletion ioreq data)
  | .generateHeaderTLP => do
      let req ← s.writes.dmaPageWriteReqQ.first
      let busAddr ← s.pages.dmaWriteBufAddrQ.first
      let data ← s.writes.dmaWriteWordQ.first
      return (.write, s.writeHeaderOf req busAddr data)
  | .generateDataTLP =>
      if s.writes.dataWordsRemain > 1 then do
        let d ← s.writes.dmaWriteWordQ.first
        return (.write, writeDataTLP (nextBeatData s.writes.dmaWriteBuf d) 0xffff#16 0#1)
      else some (.write, writeDataTLP s.writes.dmaWriteBuf 0x0fff#16 1#1)
  | _ => none

/-- The beat an event passes to `sendData`, `sendKeep` and `sendLast`. -/
def transmitted (s : PcieCtrl) : Event → Option SendTLP
  | .relayTLP => s.tx.sendTLPQ.first
  | _ => none

end PcieCtrl

/-- What an event can do to the transmit side, with the beat offered and the beat sent. -/
inductive TxStep (s s' : PcieCtrl) : Option (TlpSource × SendTLP) → Option SendTLP → Prop
  | other (tx : s'.tx = s.tx)
    (remain : s'.writes.dataWordsRemain = s.writes.dataWordsRemain)
    : TxStep s s' none none
  | single {source : TlpSource} {port : Nat} {tlp : SendTLP} {sendTLPm : MergeN SendTLP}
    (wired : source.port = some port) (notUser : source ≠ .user)
    (put : s.tx.sendTLPm.enq 8 port tlp = some sendTLPm)
    (tx : s'.tx = { s.tx with sendTLPm := sendTLPm })
    (remain : s'.writes.dataWordsRemain = s.writes.dataWordsRemain)
    : TxStep s s' (some (source, tlp)) none
  | dataSend {tlp : SendTLP} {userSendTLPQ : Fifo SendTLP 2}
    (put : userSendTLPQ.items = s.tx.userSendTLPQ.items ++ [tlp])
    (tx : s'.tx = { s.tx with userSendTLPQ := userSendTLPQ })
    (remain : s'.writes.dataWordsRemain = s.writes.dataWordsRemain)
    : TxStep s s' (some (.user, tlp)) none
  | relayUserSendTLP {tlp : SendTLP} {userSendTLPQ : Fifo SendTLP 2}
    {sendTLPm : MergeN SendTLP}
    (taken : s.tx.userSendTLPQ.items = tlp :: userSendTLPQ.items)
    (put : s.tx.sendTLPm.enq 8 5 tlp = some sendTLPm)
    (tx : s'.tx = { s.tx with userSendTLPQ := userSendTLPQ, sendTLPm := sendTLPm })
    (remain : s'.writes.dataWordsRemain = s.writes.dataWordsRemain)
    : TxStep s s' none none
  | merge {rule : MergeRule} {sendTLPm : MergeN SendTLP}
    (fires : s.tx.sendTLPm.fire rule = some sendTLPm)
    (tx : s'.tx = { s.tx with sendTLPm := sendTLPm })
    (remain : s'.writes.dataWordsRemain = s.writes.dataWordsRemain)
    : TxStep s s' none none
  | relayTLPm {tlp : SendTLP} {sendTLPm : MergeN SendTLP} {sendTLPQ : Fifo SendTLP 8}
    (idle : s.writes.dataWordsRemain = 0)
    (taken : s.tx.sendTLPm.deq = some (tlp, sendTLPm))
    (put : sendTLPQ.items = s.tx.sendTLPQ.items ++ [tlp])
    (tx : s'.tx = { s.tx with sendTLPm := sendTLPm, sendTLPQ := sendTLPQ })
    (remain : s'.writes.dataWordsRemain = s.writes.dataWordsRemain)
    : TxStep s s' none none
  | header {tlp : SendTLP} {req : DMAReq} {busAddr : BitVec 32} {data : DMAWord}
    {sendTLPQ : Fifo SendTLP 8}
    (idle : s.writes.dataWordsRemain = 0)
    (requested : req ∈ s.writes.dmaPageWriteReqQ.items)
    (built : tlp = s.writeHeaderOf req busAddr data)
    (put : sendTLPQ.items = s.tx.sendTLPQ.items ++ [tlp])
    (tx : s'.tx = { s.tx with sendTLPQ := sendTLPQ })
    (remain : s'.writes.dataWordsRemain = req.words)
    : TxStep s s' (some (.write, tlp)) none
  | data {tlp : SendTLP} {beatData : DMAWord} {sendTLPQ : Fifo SendTLP 8}
    (busy : s.writes.dataWordsRemain > 0)
    (built : tlp = if s.writes.dataWordsRemain > 1 then writeDataTLP beatData 0xffff#16 0#1
      else writeDataTLP beatData 0x0fff#16 1#1)
    (put : sendTLPQ.items = s.tx.sendTLPQ.items ++ [tlp])
    (tx : s'.tx = { s.tx with sendTLPQ := sendTLPQ })
    (remain : s'.writes.dataWordsRemain = s.writes.dataWordsRemain - 1)
    : TxStep s s' (some (.write, tlp)) none
  | relayTLP {tlp : SendTLP} {sendTLPQ : Fifo SendTLP 8}
    (taken : s.tx.sendTLPQ.items = tlp :: sendTLPQ.items)
    (tx : s'.tx = { s.tx with sendTLPQ := sendTLPQ })
    (remain : s'.writes.dataWordsRemain = s.writes.dataWordsRemain)
    : TxStep s s' none (some tlp)

section Steps

variable {s s' : PcieCtrl}

/-- Only the write generator moves `dataWordsRemain`. -/
theorem dataWordsRemain_unchanged {e : Event} (fires : s.step e = some s')
    (notHeader : e ≠ .generateHeaderTLP) (notData : e ≠ .generateDataTLP)
    : s'.writes.dataWordsRemain = s.writes.dataWordsRemain := by
  have frame := (step_unchanged fires).writes
  cases e
  case dmaWriteReq addr words =>
    obtain ⟨_, _, rfl⟩ := PcieCtrl.dmaWriteReq_cases fires
    rfl
  case dmaWriteData data =>
    obtain ⟨_, _, rfl⟩ := PcieCtrl.dmaWriteData_cases fires
    rfl
  case splitDmaWriteReq =>
    obtain ⟨_, _, _, _, rfl⟩ := PcieCtrl.splitDmaWriteReq_cases fires
    rfl
  case relayFreeWriteTag =>
    obtain ⟨_, _, _, _, _, rfl⟩ := PcieCtrl.relayFreeWriteTag_cases fires
    rfl
  case splitDmaWriteReq2 =>
    obtain ⟨_, _, _, _, _, _, _, _, _, _, _, _, rfl⟩ := PcieCtrl.splitDmaWriteReq2_cases fires
    rfl
  case generateHeaderTLP => exact absurd rfl notHeader
  case generateDataTLP => exact absurd rfl notData
  all_goals rw [frame (by simp [Event.parts])]

open PcieCtrl in
/-- Every event does one of the transmit steps, with the beats it offers and sends. -/
theorem tx_step {e : Event} (fires : s.step e = some s')
    : TxStep s s' (s.offered e) (s.transmitted e) := by
  have frame := (step_unchanged fires).tx
  have remain := dataWordsRemain_unchanged fires
  cases e
  case filterStatReadTLP =>
    obtain ⟨_, tlp, tlpQ, keep, tlpKeepQ, taken, _, answered⟩ := filterStatReadTLP_cases fires
    have first : s.rx.tlpQ.first = some tlp := Fifo.first_eq_some.mpr ⟨_, taken⟩
    rcases answered with ⟨data, sendTLPm, read, status, put, rfl⟩
      | ⟨tlp2Q, noStatus, _, _, rfl⟩ | ⟨_, _, notRead, _, _, _, rfl⟩
    · have same : s.offered .filterStatReadTLP
          = some (.status, s.statusCompletion tlp data) := by
        simp [offered, first, read, status]
      rw [same]
      exact .single rfl (by decide) put rfl rfl
    · have same : s.offered .filterStatReadTLP = none := by
        simp only [offered, first, Option.bind_eq_bind, Option.bind_some]
        split
        next read => simp [noStatus read]
        next => rfl
      rw [same]
      exact .other rfl rfl
    · have same : s.offered .filterStatReadTLP = none := by
        simp [offered, first, notRead]
      rw [same]
      exact .other rfl rfl
  case procIOWrite =>
    obtain ⟨tlp, tlp3Q, sendTLPm, taken, answer, applied⟩ := procIOWrite_cases fires
    have first : s.rx.tlp3Q.first = some tlp := Fifo.first_eq_some.mpr ⟨_, taken⟩
    have tx : s'.tx = { s.tx with sendTLPm := sendTLPm } := by
      rcases applied with ⟨_, rfl⟩ | ⟨_, _, rfl⟩ | ⟨_, _, _, _, rfl⟩ <;> rfl
    by_cases io : tlpType tlp = type_wr32_io
    · have same : s.offered .procIOWrite = some (.ioWrite, s.ioWriteCompletion tlp) := by
        simp [offered, first, io]
      rw [same]
      rw [if_pos io] at answer
      exact .single rfl (by decide) answer tx (remain (by decide) (by decide))
    · have same : s.offered .procIOWrite = none := by
        simp [offered, first, io]
      rw [same]
      rw [if_neg io] at answer
      subst answer
      exact .other tx (remain (by decide) (by decide))
  case completeIORead =>
    simp only [step, completeIORead, Option.bind_eq_bind, Option.pure_def,
      Fifo.bind_deq_eq_some, Bram2.bind_getA_eq_some] at fires
    obtain ⟨ioreq, ioReadQ, taken, v, respA, resp, fires⟩ := fires
    simp only [Option.bind_eq_some_iff, Option.some.injEq] at fires
    obtain ⟨sendTLPm, put, rfl⟩ := fires
    have same : s.offered .completeIORead = some (.config, s.configCompletion ioreq v) := by
      simp [offered, Fifo.first_eq_some.mpr ⟨_, taken⟩, Fifo.first_eq_some.mpr ⟨_, resp⟩]
    rw [same]
    exact .single rfl (by decide) put rfl rfl
  case generateDmaReadTLP =>
    obtain ⟨req, _, busAddr, _, _, sendTLPm, taken, takenAddr, _, put, rfl⟩ :=
      generateDmaReadTLP_cases fires
    have same : s.offered .generateDmaReadTLP
        = some (.readRequest, s.readRequestOf req busAddr) := by
      simp [offered, Fifo.first_eq_some.mpr ⟨_, taken⟩, Fifo.first_eq_some.mpr ⟨_, takenAddr⟩]
    rw [same]
    exact .single rfl (by decide) put rfl rfl
  case dataSend ioreq data =>
    simp only [step, PcieCtrl.dataSend, Option.bind_eq_bind, Option.pure_def,
      Fifo.bind_enq_eq_some, Option.some.injEq] at fires
    obtain ⟨userSendTLPQ, _, put, rfl⟩ := fires
    exact .dataSend put rfl rfl
  case relayUserSendTLP =>
    simp only [step, PcieCtrl.relayUserSendTLP, Option.bind_eq_bind, Option.pure_def,
      Fifo.bind_deq_eq_some] at fires
    obtain ⟨tlp, userSendTLPQ, taken, fires⟩ := fires
    simp only [Option.bind_eq_some_iff, Option.some.injEq] at fires
    obtain ⟨sendTLPm, put, rfl⟩ := fires
    exact .relayUserSendTLP taken put rfl rfl
  case sendTLPmRule rule =>
    simp only [step, sendTLPmRule, Option.bind_eq_bind, Option.pure_def,
      Option.bind_eq_some_iff, Option.some.injEq] at fires
    obtain ⟨sendTLPm, fired, rfl⟩ := fires
    exact .merge fired rfl rfl
  case relayTLPm =>
    obtain ⟨idle, tlp, sendTLPm, sendTLPQ, taken, put, rfl⟩ := relayTLPm_cases fires
    exact .relayTLPm idle taken put rfl rfl
  case relayTLP =>
    simp only [step, PcieCtrl.relayTLP, Option.bind_eq_bind, Option.pure_def,
      Option.map_eq_some_iff, Fifo.bind_deq_eq_some, Option.some.injEq] at fires
    obtain ⟨_, ⟨tlp, sendTLPQ, taken, rfl⟩, rfl⟩ := fires
    have same : s.transmitted .relayTLP = some tlp := Fifo.first_eq_some.mpr ⟨_, taken⟩
    rw [same]
    exact .relayTLP taken rfl rfl
  case generateHeaderTLP =>
    obtain ⟨idle, req, _, busAddr, _, data, _, sendTLPQ, _, taken, takenAddr, takenWord, put,
      rfl⟩ := generateHeaderTLP_cases fires
    have same : s.offered .generateHeaderTLP
        = some (.write, s.writeHeaderOf req busAddr data) := by
      simp [offered, Fifo.first_eq_some.mpr ⟨_, taken⟩, Fifo.first_eq_some.mpr ⟨_, takenAddr⟩,
        Fifo.first_eq_some.mpr ⟨_, takenWord⟩]
    rw [same]
    exact .header idle (by simp [taken]) rfl put rfl rfl
  case generateDataTLP =>
    rcases generateDataTLP_cases fires with ⟨more, d, wordQ, sendTLPQ, taken, put, rfl⟩
      | ⟨busy, final, _, _, _, sendTLPQ, _, _, put, rfl⟩
    · have same : s.offered .generateDataTLP
          = some (.write, writeDataTLP (nextBeatData s.writes.dmaWriteBuf d) 0xffff#16 0#1) := by
        simp only [offered, if_pos more, Fifo.first_eq_some.mpr ⟨_, taken⟩]
        rfl
      rw [same]
      refine .data ?_ (by rw [if_pos more]) put rfl rfl
      bv_omega
    · have same : s.offered .generateDataTLP
          = some (.write, writeDataTLP s.writes.dmaWriteBuf 0x0fff#16 1#1) := by
        simp only [offered, if_neg final]
      rw [same]
      exact .data busy (by rw [if_neg final]) put rfl rfl
  all_goals exact .other (frame (by simp [Event.parts])) (remain (by simp) (by simp))

end Steps

end BluespecPcie

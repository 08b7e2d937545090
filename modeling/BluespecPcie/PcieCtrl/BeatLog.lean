import BluespecPcie.PcieCtrl.Frames
import BluespecPcie.PcieCtrl.TlpStream

/-! The history of the receive side: beats received, enqueued into `tlpQ`, and decoded. -/

namespace BluespecPcie

open Bluespec

/-- The rule that consumed a beat of `tlpQ`: `filterStatReadTLP` or `procCompletionTLP`. -/
inductive Role where
  | header
  | payload
deriving DecidableEq

/-- Beats accepted by `recvTLP`, beats it enqueued into `tlpQ`, and beats consumed from
there with the rule that took them.
-/
structure BeatLog where
  received : List RxBeat := []
  enqueued : List (BitVec 128) := []
  decoded : List (Role × BitVec 128) := []

/-- How an event extends the history; `s` is the state before it. -/
def BeatLog.record (s : PcieCtrl) (e : Event) (log : BeatLog) : BeatLog :=
  match e with
  | .recvTLP b =>
      { log with
        received := log.received ++ [b]
        enqueued := log.enqueued ++ ((s.rx.realign.next b).2.map Prod.fst).toList }
  | .filterStatReadTLP =>
      { log with decoded := log.decoded ++ s.rx.tlpQ.items.head?.toList.map (Role.header, ·) }
  | .procCompletionTLP =>
      { log with decoded := log.decoded ++ s.rx.tlpQ.items.head?.toList.map (Role.payload, ·) }
  | _ => log

/-- `mkPcieCtrl` with the history of its receive side. -/
def beatStep : PcieCtrl × BeatLog → Event → Option (PcieCtrl × BeatLog) :=
  traced PcieCtrl.step BeatLog.record

/-- The registers after a list of beats, and the beats enqueued meanwhile. -/
def Realign.run (r : Realign) : List RxBeat → Realign × List (BitVec 128)
  | [] => (r, [])
  | b :: rest =>
      let (r', beat) := r.next b
      let (last, beats) := run r' rest
      (last, (beat.map Prod.fst).toList ++ beats)

/-- One more beat at the end; induction on the beats before it. -/
theorem Realign.run_snoc (r : Realign) (bs : List RxBeat) (b : RxBeat)
    : r.run (bs ++ [b])
      = (((r.run bs).1.next b).1,
          (r.run bs).2 ++ (((r.run bs).1.next b).2.map Prod.fst).toList) := by
  induction bs generalizing r with
  | nil => simp [run]
  | cons first rest ih => simp [run, ih, List.append_assoc]

/-- The length register after a beat decoded as header or payload. -/
def nextLength (length : BitVec 10) (beat : BitVec 128) : BitVec 10 :=
  if length = 0#10 then
    if isRead (tlpType beat) then 0#10
    else if isCompletion (tlpType beat) then tlpLength beat - 1#10 else 0#10
  else if 4#10 ≤ length then length - 4#10 else 0#10

/-- The role a beat gets with this length register. -/
def roleOf (length : BitVec 10) : Role := if length = 0#10 then .header else .payload

/-- The length register after a list of beats, and the role each beat gets. -/
def parse (length : BitVec 10) : List (BitVec 128) → BitVec 10 × List Role
  | [] => (length, [])
  | beat :: rest =>
      let (last, roles) := parse (nextLength length beat) rest
      (last, roleOf length :: roles)

/-- One more beat at the end; induction on the beats before it. -/
theorem parse_snoc (length : BitVec 10) (beats : List (BitVec 128)) (beat : BitVec 128)
    : parse length (beats ++ [beat])
      = (nextLength (parse length beats).1 beat,
          (parse length beats).2 ++ [roleOf (parse length beats).1]) := by
  induction beats generalizing length with
  | nil => simp [parse]
  | cons first rest ih => simp [parse, ih]

/-- Splitting the beats splits the roles. -/
theorem parse_append (length : BitVec 10) (first second : List (BitVec 128))
    : parse length (first ++ second)
      = ((parse (parse length first).1 second).1,
          (parse length first).2 ++ (parse (parse length first).1 second).2) := by
  induction first generalizing length with
  | nil => simp [parse]
  | cons beat rest ih => simp [parse, ih]

/-- What the receive registers and `tlpQ` say about the history. -/
structure BeatLog.Agrees (log : BeatLog) (rx : ReceivePath) : Prop where
  realigned : Realign.reset.run log.received
    = (rx.realign, log.enqueued)
  queued : log.enqueued = log.decoded.map Prod.snd ++ rx.tlpQ.items
  parsed : parse 0#10 (log.decoded.map Prod.snd)
    = (rx.completionRecvLength, log.decoded.map Prod.fst)

/-- The receive rules keep the history in step with the registers; the others do not matter.
-/
theorem BeatLog.Agrees.step {s s' : PcieCtrl} {e : Event} {log : BeatLog}
    (agrees : log.Agrees s.rx) (fires : s.step e = some s')
    : (log.record s e).Agrees s'.rx := by
  obtain ⟨realigned, queued, parsed⟩ := agrees
  cases e with
  | recvTLP b =>
      rcases PcieCtrl.recvTLP_cases fires with ⟨none, rfl⟩
        | ⟨tlp, keep, tlpQ, tlpKeepQ, some, put, -, rfl⟩
      · refine ⟨?_, by simpa [record, none] using queued, parsed⟩
        simp [record, Realign.run_snoc, realigned, none]
      · refine ⟨?_, ?_, parsed⟩
        · simp [record, Realign.run_snoc, realigned]
        · simp [record, some, put, queued]
  | procCompletionTLP =>
      obtain ⟨busy, tlp, tlpQ, keep, keepQ, wordQ, taken, -, -, rfl⟩ :=
        PcieCtrl.procCompletionTLP_cases fires
      have payload : s.rx.completionRecvLength ≠ 0#10 := by
        intro zero
        rw [zero] at busy
        exact absurd busy (by decide)
      refine ⟨realigned, ?_, ?_⟩
      · simp [record, taken, queued]
      · simp [record, taken, parse_snoc, parsed, nextLength, roleOf, payload]
  | filterStatReadTLP =>
      obtain ⟨idle, tlp, tlpQ, keep, keepQ, taken, -, branch⟩ :=
        PcieCtrl.filterStatReadTLP_cases fires
      have decoded : s'.rx.realign = s.rx.realign ∧ s'.rx.tlpQ = tlpQ
          ∧ s'.rx.completionRecvLength = nextLength 0#10 tlp := by
        rcases branch with ⟨data, sendTLPm, read, -, -, rfl⟩
          | ⟨tlp2Q, -, other, -, rfl⟩ | ⟨wordQ, burstQ, notRead, completion, -, -, rfl⟩
        · simp [nextLength, read, idle]
        · rcases other with read | other
          · simp [nextLength, read, idle]
          · simp [nextLength, other, idle]
        · simp [nextLength, notRead, completion]
      refine ⟨?_, ?_, ?_⟩
      · simp [record, realigned, decoded]
      · simp [record, taken, queued, decoded]
      · simp [record, taken, parse_snoc, parsed, idle, roleOf, decoded]
  | procTLP =>
      obtain ⟨-, tlp, tlp2Q, -, ⟨_, _, -, -, -, -, rfl⟩ | ⟨_, -, -, -, rfl⟩
        | ⟨_, -, -, -, rfl⟩ | ⟨-, -, rfl⟩⟩ := PcieCtrl.procTLP_cases fires
      all_goals exact ⟨realigned, queued, parsed⟩
  | procIOWrite =>
      obtain ⟨tlp, tlp3Q, sendTLPm, -, -, ⟨-, rfl⟩ | ⟨-, -, rfl⟩ | ⟨-, -, _, -, rfl⟩⟩ :=
        PcieCtrl.procIOWrite_cases fires
      all_goals exact ⟨realigned, queued, parsed⟩
  | _ =>
      have same := (step_unchanged fires).rx (by simp [Event.parts])
      exact ⟨by rw [same]; exact realigned, by rw [same]; exact queued,
        by rw [same]; exact parsed⟩

/-- The history of every run from reset agrees with the registers. -/
theorem beatStep_agrees {p : PowerUp} {s : PcieCtrl × BeatLog}
    (run : Reach beatStep anyEvent (mkPcieCtrl p, {}) s)
    : s.2.Agrees s.1.rx := by
  refine run.invariant (P := fun s => s.2.Agrees s.1.rx) ⟨rfl, rfl, rfl⟩ ?_
  intro s e s' agrees _ fires
  obtain ⟨fires, log⟩ := traced_eq_some.mp fires
  rw [log]
  exact agrees.step fires

end BluespecPcie

import BluespecPcie.PcieCtrl.Answers
import Mathlib.Data.List.Perm.Subperm

/-! A thread of the host program and the device over the PCIe link.

A store is a posted write, and a load waits for its completion, so a thread has one load under
way at a time. Two threads of the host never wait for each other's completions.
-/

namespace BluespecPcie

open Bluespec

/-- A thread of the host program on BAR0: the load it waits for, and what a call or the data of
that load makes it do, with the TLPs it sends.
-/
structure HostThread (σ κ : Type) where
  waitsFor : σ → Option (BitVec 128)
  call : σ → κ → Option (σ × List RxBeat)
  loaded : σ → BitVec 32 → σ × List RxBeat

/-- Thread, link and device; `front` are the beats of a TLP whose end has not arrived yet. -/
structure Linked (σ : Type) where
  host : σ
  wire : List RxBeat
  front : List SendTLP
  device : PcieCtrl

/-- What may happen: a call, the arrival of a beat at the device, or an event of it. -/
inductive LinkEvent (κ : Type) where
  | call (c : κ)
  | receive
  | device (e : Event)
deriving DecidableEq

/-- The completion that ends with a beat, behind the beats of its TLP before. -/
def arrivedCompletion (front : List SendTLP) (b : SendTLP) : Option SendTLP :=
  if b.last = 1#1 then completionOf (front ++ [b]) else none

namespace HostThread

variable {σ κ : Type} (thread : HostThread σ κ)

/-- The thread with a completion: the data of the load it waits for, or nothing to it. -/
def take (h : σ) : Option SendTLP → σ × List RxBeat
  | none => (h, [])
  | some completion => match thread.waitsFor h with
      | none => (h, [])
      | some load =>
          if completionId completion = requestId load then
            thread.loaded h (completionData completion)
          else (h, [])

/-- A beat from the device arrives. -/
def arrive (s : Linked σ) (b : SendTLP) (device : PcieCtrl) : Linked σ where
  host := (thread.take s.host (arrivedCompletion s.front b)).1
  wire := s.wire ++ (thread.take s.host (arrivedCompletion s.front b)).2
  front := openTLP s.front [b]
  device := device

/-- One event; `none` when it cannot happen. Beats reach the device from the link only. -/
def step (s : Linked σ) : LinkEvent κ → Option (Linked σ)
  | .call c =>
      (thread.call s.host c).map (fun next =>
        { s with host := next.1, wire := s.wire ++ next.2 })
  | .receive => match s.wire with
      | [] => none
      | b :: wire => (s.device.recvTLP b).map ({ s with wire, device := · })
  | .device (.recvTLP _) => none
  | .device .relayTLP =>
      s.device.relayTLP.map (fun sent => thread.arrive s sent.1 sent.2)
  | .device e => (s.device.step e).map ({ s with device := · })

/-- The answers due to the load the thread waits for. -/
def awaited (h : σ) : List (TlpSource × BitVec 32) := (thread.waitsFor h).toList.flatMap answerDue

end HostThread

/-- The answers that TLPs on the link call for. -/
def wireDue (wire : List RxBeat) : List (TlpSource × BitVec 32) :=
  wire.flatMap (fun b => answerDue b.tlp)

/-- A thread has one load under way: it sends requests, and a load only when it then waits for
it, never while it waits for another.
-/
structure HostThread.Sequential {σ κ : Type} (thread : HostThread σ κ) : Prop where
  call : ∀ h c next, thread.call h c = some next →
    thread.waitsFor h = none ∧ (∀ b ∈ next.2, RequestBeat b)
    ∧ (wireDue next.2).Subperm (thread.awaited next.1)
  loaded : ∀ h load x, thread.waitsFor h = some load →
    (∀ b ∈ (thread.loaded h x).2, RequestBeat b)
    ∧ (wireDue (thread.loaded h x).2).Subperm (thread.awaited (thread.loaded h x).1)

/-- The user answers only reads it took. -/
def LinkEvent.Answers {κ : Type} (hand : List IOReadReq) : LinkEvent κ → Prop
  | .device e => AnswersHand hand e
  | _ => True

instance {κ : Type} (hand : List IOReadReq) (e : LinkEvent κ) : Decidable (e.Answers hand) := by
  cases e <;> unfold LinkEvent.Answers <;> infer_instance

/-- What an event of the link does at the device. -/
def Linked.deviceEvent {σ κ : Type} (s : Linked σ) : LinkEvent κ → Option Event
  | .call _ => none
  | .receive => s.wire.head?.map .recvTLP
  | .device e => some e

/-- The history of the device under the events of the link. -/
def AnswerLog.recordLink {σ κ : Type} (s : Linked σ) (e : LinkEvent κ) (log : AnswerLog)
    : AnswerLog :=
  match s.deviceEvent e with
  | some event => log.record s.device event
  | none => log

/-- The TLPs the thread sends with an event. -/
def HostThread.sends {σ κ : Type} (thread : HostThread σ κ) (s : Linked σ)
    : LinkEvent κ → List RxBeat
  | .call c => ((thread.call s.host c).map Prod.snd).getD []
  | .receive => []
  | .device e => (thread.take s.host ((s.device.transmitted e).bind
      (arrivedCompletion s.front))).2

-----------------------------------------------------------------------------------------
-- One load under way
-----------------------------------------------------------------------------------------

/-- The answers under way: on the link to the device, due in it, in the user's hands, or given
and not arrived yet.
-/
def Linked.answersUnderWay {σ : Type} (s : Linked σ) (log : AnswerLog)
    (unsent : List (TlpSource × SendTLP)) : List (TlpSource × BitVec 32) :=
  wireDue s.wire ++ s.device.requests.due ++ log.hand.map userAnswerDue
    ++ unsent.map answerGiven

/-- The completions given are `sent`, and then `unsent`; no answer is under way but the one to
the load the thread waits for.
-/
structure OneLoad {σ κ : Type} (thread : HostThread σ κ) (p : PowerUp) (s : Linked σ)
    (log : AnswerLog) (sent unsent : List (TlpSource × SendTLP)) : Prop where
  device : Reach (traced PcieCtrl.step AnswerLog.record) AnswersRequests
    (mkPcieCtrl p, AnswerLog.start) (s.device, log)
  front : s.front = openTLP [] log.transmit.sent
  wire : ∀ b ∈ s.wire, RequestBeat b
  given : answersIn log.transmit.offered = sent ++ unsent
  arrived : sent.map Prod.snd = completions (cutTLPs [] log.transmit.sent)
  single : (s.answersUnderWay log unsent).Subperm (thread.awaited s.host)

/-- The completion that arrives at the host with an event of the device. -/
def Linked.arrival {σ : Type} (s : Linked σ) (e : Event) : Option SendTLP :=
  (s.device.transmitted e).bind (arrivedCompletion s.front)

/-- What an event of the link can do. -/
inductive LinkStep {σ κ : Type} (thread : HostThread σ κ) (s : Linked σ)
    : LinkEvent κ → Linked σ → Prop
  | call {c : κ} {next : σ × List RxBeat} (called : thread.call s.host c = some next)
    : LinkStep thread s (.call c) { s with host := next.1, wire := s.wire ++ next.2 }
  | receive {b : RxBeat} {wire : List RxBeat} {device : PcieCtrl} (head : s.wire = b :: wire)
    (fired : s.device.step (.recvTLP b) = some device)
    : LinkStep thread s .receive { s with wire, device }
  | device {e : Event} {device : PcieCtrl} (inner : ∀ b, e ≠ .recvTLP b)
    (fired : s.device.step e = some device) (none : s.arrival e = none)
    : LinkStep thread s (.device e)
        { s with device, front := openTLP s.front (s.device.transmitted e).toList }
  | arrival {b completion : SendTLP} {device : PcieCtrl}
    (fired : s.device.step .relayTLP = some device)
    (sent : s.device.transmitted .relayTLP = some b)
    (arrived : arrivedCompletion s.front b = some completion)
    : LinkStep thread s (.device .relayTLP)
        { host := (thread.take s.host (some completion)).1
          wire := s.wire ++ (thread.take s.host (some completion)).2
          front := openTLP s.front [b]
          device := device }

section Steps

variable {σ κ : Type} {thread : HostThread σ κ} {p : PowerUp} {s s' : Linked σ}
  {log : AnswerLog} {sent unsent : List (TlpSource × SendTLP)}

/-- Every event of the link does one of these steps. -/
theorem link_step {e : LinkEvent κ} (fires : thread.step s e = some s')
    : LinkStep thread s e s' := by
  cases e with
  | call c =>
      obtain ⟨next, called, rfl⟩ := Option.map_eq_some_iff.mp fires
      exact .call called
  | receive =>
      simp only [HostThread.step] at fires
      split at fires
      next => cases fires
      next b wire head =>
        obtain ⟨device, fired, rfl⟩ := Option.map_eq_some_iff.mp fires
        exact .receive head fired
  | device e =>
      by_cases relay : e = .relayTLP
      · subst relay
        obtain ⟨⟨b, device⟩, sent, rfl⟩ := Option.map_eq_some_iff.mp fires
        have fired : s.device.step .relayTLP = some device := by
          simp only [PcieCtrl.step, sent, Option.map_some]
        have transmitted : s.device.transmitted .relayTLP = some b := by
          simp only [PcieCtrl.relayTLP, Option.bind_eq_bind, Option.pure_def,
            Fifo.bind_deq_eq_some, Option.some.injEq, Prod.mk.injEq] at sent
          obtain ⟨_, sendTLPQ, taken, rfl, _⟩ := sent
          exact Fifo.first_eq_some.mpr ⟨_, taken⟩
        cases arrived : arrivedCompletion s.front b with
        | some completion =>
            simp only [HostThread.arrive, arrived]
            exact .arrival fired transmitted arrived
        | none =>
            have same : thread.arrive s b device
                = { s with
                    device
                    front := openTLP s.front (s.device.transmitted .relayTLP).toList } := by
              simp only [HostThread.arrive, arrived, HostThread.take, List.append_nil,
                transmitted, Option.toList_some]
            rw [same]
            refine .device (fun b => by simp) fired ?_
            rw [Linked.arrival, transmitted, Option.bind_some, arrived]
      · have quiet : s.device.transmitted e = none := by
          cases e <;> first | rfl | exact absurd rfl relay
        have inner : ∀ b, e ≠ .recvTLP b := by
          rintro b rfl
          cases fires
        have alone : thread.step s (.device e)
            = (s.device.step e).map ({ s with device := · }) := by
          cases e <;> first | rfl | exact absurd rfl relay | exact absurd rfl (inner _)
        rw [alone] at fires
        obtain ⟨device, fired, rfl⟩ := Option.map_eq_some_iff.mp fires
        have same : ({ s with device } : Linked σ)
            = { s with device, front := openTLP s.front (s.device.transmitted e).toList } := by
          rw [quiet]
          rfl
        rw [same]
        exact .device inner fired (by rw [Linked.arrival, quiet]; rfl)

/-- A completion ends the load the thread waits for, or is nothing to it. -/
theorem HostThread.take_cases (thread : HostThread σ κ) (h : σ) (completion : SendTLP)
    : thread.take h (some completion) = (h, [])
      ∨ ∃ load, thread.waitsFor h = some load
          ∧ thread.take h (some completion) = thread.loaded h (completionData completion) := by
  cases waits : thread.waitsFor h with
  | none => exact .inl (by simp only [HostThread.take, waits])
  | some load =>
      by_cases same : completionId completion = requestId load
      · exact .inr ⟨load, rfl, by simp only [HostThread.take, waits, if_pos same]⟩
      · exact .inl (by simp only [HostThread.take, waits, if_neg same])

/-- A schedule of the device that neither receives nor sends is one of the link; induction on
it.
-/
theorem exec_device {es : List Event} {device : PcieCtrl}
    (inner : ∀ e ∈ es, e ≠ .relayTLP ∧ ∀ b, e ≠ .recvTLP b)
    (done : exec PcieCtrl.step s.device es = some device)
    : exec thread.step s (es.map .device) = some { s with device } := by
  induction es generalizing s with
  | nil =>
      cases done
      rfl
  | cons e rest ih =>
      unfold exec at done
      split at done
      next => cases done
      next mid fired =>
        obtain ⟨noSend, noBeat⟩ := inner e (by simp)
        have fires : thread.step s (.device e) = some { s with device := mid } := by
          cases e <;> first
            | exact absurd rfl noSend
            | exact absurd rfl (noBeat _)
            | exact Option.map_eq_some_iff.mpr ⟨mid, fired, rfl⟩
        rw [List.map_cons, exec, fires]
        exact ih (fun other member => inner other (by simp [member])) done

/-- A request calls for one answer at most. -/
theorem answerDue_length (tlp : BitVec 128) : (answerDue tlp).length ≤ 1 := by
  rw [answerDue, List.length_map]
  cases answerSource tlp <;> simp

/-- A thread waits for one answer at most. -/
theorem HostThread.awaited_length (h : σ) : (thread.awaited h).length ≤ 1 := by
  unfold HostThread.awaited
  cases thread.waitsFor h with
  | none => exact Nat.zero_le 1
  | some load => simpa using answerDue_length load

/-- With nothing to wait for, no answer is under way. -/
theorem OneLoad.quiet (one : OneLoad thread p s log sent unsent)
    (idle : thread.waitsFor s.host = none)
    : s.answersUnderWay log unsent = [] := by
  have single := one.single
  rw [HostThread.awaited, idle] at single
  exact List.subperm_nil.mp single

/-- The device only ever serves requests. -/
theorem OneLoad.requestsOnly (one : OneLoad thread p s log sent unsent)
    : RequestsOnly s.device := by
  refine one.device.invariant (P := fun state => RequestsOnly state.1) (RequestsOnly.init p) ?_
  rintro ⟨s, log⟩ e ⟨s', log'⟩ only allowed fires
  exact only.step allowed.1 (traced_eq_some.mp fires).1

/-- At reset nothing is under way. -/
theorem OneLoad.init {h : σ} (idle : thread.waitsFor h = none)
    : OneLoad thread p ⟨h, [], [], mkPcieCtrl p⟩ .start [] [] := by
  refine ⟨.refl, rfl, by simp, rfl, rfl, ?_⟩
  rw [HostThread.awaited, idle]
  exact List.Subperm.refl _

/-- A call sends requests when nothing is under way. -/
theorem OneLoad.call (sequential : thread.Sequential) {c : κ} {next : σ × List RxBeat}
    (one : OneLoad thread p s log sent unsent) (called : thread.call s.host c = some next)
    : unsent = []
      ∧ OneLoad thread p { s with host := next.1, wire := s.wire ++ next.2 } log sent [] := by
  obtain ⟨idle, requests, due⟩ := sequential.call _ _ _ called
  have quiet := one.quiet idle
  simp only [Linked.answersUnderWay, List.append_eq_nil_iff, List.map_eq_nil_iff] at quiet
  obtain ⟨⟨⟨wire, device⟩, hand⟩, rfl⟩ := quiet
  refine ⟨rfl, one.device, one.front, ?_, one.given, one.arrived, ?_⟩
  · intro b member
    rcases List.mem_append.mp member with old | new
    · exact one.wire b old
    · exact requests b new
  · have wires : wireDue (s.wire ++ next.2) = wireDue next.2 := by
      rw [wireDue, List.flatMap_append]
      exact congrArg (· ++ wireDue next.2) wire
    simpa only [Linked.answersUnderWay, wires, device, hand, List.map_nil, List.append_nil]
      using due

/-- An event of the device moves the answers under way, and may give one of them. -/
theorem answersUnderWay_device {e : Event} {device : PcieCtrl}
    (unsent : List (TlpSource × SendTLP)) (wire : List RxBeat) (front : List SendTLP)
    (only : RequestsOnly s.device) (allowed : AnswersRequests (s.device, log) e)
    (fired : s.device.step e = some device)
    (wires : (wireDue s.wire).Perm
      ((s.device.requestCall e).accepts.flatMap answerDue ++ wireDue wire))
    : (s.answersUnderWay log unsent).Perm
        (({ s with wire, device, front } : Linked σ).answersUnderWay (log.record s.device e)
          (unsent ++ answersIn (s.device.offered e).toList)) := by
  have moved := List.perm_iff_count.mp (request_step only allowed.1 fired).due
  have hand := List.perm_iff_count.mp ((allowed.2.perm (s := s.device)).map userAnswerDue)
  rw [List.perm_iff_count] at wires ⊢
  intro token
  have moved := moved token
  have hand := hand token
  have wires := wires token
  simp only [Linked.answersUnderWay, AnswerLog.record, List.map_append, List.count_append]
    at moved hand wires ⊢
  omega

/-- The beats sent, with what an event sends, cut into TLPs. -/
theorem completions_record {e : Event} (fronts : s.front = openTLP [] log.transmit.sent)
    : openTLP [] (log.record s.device e).transmit.sent
        = openTLP s.front (s.device.transmitted e).toList
      ∧ completions (cutTLPs [] (log.record s.device e).transmit.sent)
        = completions (cutTLPs [] log.transmit.sent) ++ (s.arrival e).toList := by
  rw [AnswerLog.record, TransmitLog.record, Linked.arrival]
  cases sent : s.device.transmitted e with
  | none =>
      refine ⟨?_, ?_⟩
      · rw [Option.toList_none, List.append_nil, fronts]
        rfl
      · rw [Option.toList_none, List.append_nil, Option.bind_none, Option.toList_none,
          List.append_nil]
  | some b =>
      obtain ⟨cut, opened⟩ := cutTLPs_concat [] log.transmit.sent b
      rw [Option.toList_some, cut, opened, ← fronts, Option.bind_some, arrivedCompletion,
        completions, List.filterMap_append]
      refine ⟨rfl, ?_⟩
      split
      next =>
        cases header : completionOf (s.front ++ [b]) <;> simp [completions, header]
      next => rfl

/-- An event of the device with which no completion arrives. -/
theorem OneLoad.deviceStep {e : Event} {device : PcieCtrl} (wire : List RxBeat)
    (one : OneLoad thread p s log sent unsent)
    (allowed : AnswersRequests (s.device, log) e) (fired : s.device.step e = some device)
    (wires : (wireDue s.wire).Perm
      ((s.device.requestCall e).accepts.flatMap answerDue ++ wireDue wire))
    (requests : ∀ b ∈ wire, RequestBeat b) (none : s.arrival e = none)
    : OneLoad thread p
        { s with wire, device, front := openTLP s.front (s.device.transmitted e).toList }
        (log.record s.device e) sent (unsent ++ answersIn (s.device.offered e).toList) := by
  obtain ⟨fronts, arrived⟩ := completions_record (e := e) one.front
  refine ⟨one.device.tail allowed (traced_eq_some.mpr ⟨fired, rfl⟩), fronts.symm, requests,
    ?_, ?_, ?_⟩
  · rw [AnswerLog.record, TransmitLog.record, answersIn_append, one.given, List.append_assoc]
  · rw [arrived, none, Option.toList_none, List.append_nil, one.arrived]
  · exact ((answersUnderWay_device _ wire _ one.requestsOnly allowed fired wires).subperm_right).mp
      one.single

/-- Only the arrival of a beat brings a request in. -/
theorem accepts_inner {d : PcieCtrl} {e : Event} (inner : ∀ b, e ≠ .recvTLP b)
    : (d.requestCall e).accepts = [] := by
  cases e
  case recvTLP b => exact absurd rfl (inner b)
  all_goals
    simp only [PcieCtrl.requestCall]
    repeat' split
    all_goals rfl

/-- A request beat is accepted whole. -/
theorem accepts_recvTLP {d : PcieCtrl} {b : RxBeat} (request : RequestBeat b)
    : (d.requestCall (.recvTLP b)).accepts = [b.tlp] := by
  obtain ⟨_, passed⟩ := Realign.next_right (r := d.rx.realign) request.1
  obtain ⟨⟨tlp, keep⟩, some, same⟩ := Option.map_eq_some_iff.mp passed
  have same : tlp = b.tlp := same
  simp only [PcieCtrl.requestCall, some, RequestCall.accepts, same]

/-- A beat arrives at the device. -/
theorem OneLoad.receive {b : RxBeat} {wire : List RxBeat} {device : PcieCtrl}
    (one : OneLoad thread p s log sent unsent) (head : s.wire = b :: wire)
    (fired : s.device.step (.recvTLP b) = some device)
    : OneLoad thread p { s with wire, device } (log.record s.device (.recvTLP b)) sent
        unsent := by
  have request := one.wire b (by simp [head])
  have receives : ReceivesRequests (.recvTLP b) := request
  have moved := one.deviceStep wire ⟨receives, trivial⟩ fired
    (by rw [accepts_recvTLP request, head]; simp [wireDue])
    (fun other member => one.wire other (by simp [head, member])) rfl
  simpa [PcieCtrl.transmitted, PcieCtrl.offered, answersIn, openTLP] using moved

/-- An event inside the device with which no completion arrives. -/
theorem OneLoad.inner {e : Event} {device : PcieCtrl}
    (one : OneLoad thread p s log sent unsent) (inner : ∀ b, e ≠ .recvTLP b)
    (answers : AnswersHand log.hand e) (fired : s.device.step e = some device)
    (none : s.arrival e = none)
    : OneLoad thread p
        { s with device, front := openTLP s.front (s.device.transmitted e).toList }
        (log.record s.device e) sent (unsent ++ answersIn (s.device.offered e).toList) := by
  refine one.deviceStep s.wire ⟨?_, answers⟩ fired ?_ one.wire none
  · cases e
    case recvTLP b => exact absurd rfl (inner b)
    all_goals trivial
  · rw [accepts_inner inner]
    exact .refl _

/-- An answer that an event gives is the one the thread waits for. -/
theorem OneLoad.gives {e : Event} {device : PcieCtrl} {entry : TlpSource × SendTLP}
    (one : OneLoad thread p s log sent unsent) (inner : ∀ b, e ≠ .recvTLP b)
    (answers : AnswersHand log.hand e) (fired : s.device.step e = some device)
    (gives : entry ∈ answersIn (s.device.offered e).toList)
    : ∃ load, thread.waitsFor s.host = some load ∧ answerGiven entry ∈ answerDue load := by
  have receives : ReceivesRequests e := by
    cases e
    case recvTLP b => exact absurd rfl (inner b)
    all_goals trivial
  have moved := answersUnderWay_device unsent s.wire s.front one.requestsOnly
    ⟨receives, answers⟩ fired (by rw [accepts_inner inner]; exact .refl _)
  have given : answerGiven entry ∈ s.answersUnderWay log unsent := by
    refine moved.mem_iff.mpr (List.mem_append_right _ ?_)
    rw [List.map_append]
    exact List.mem_append_right _ (List.mem_map_of_mem gives)
  obtain ⟨load, waits, due⟩ := List.mem_flatMap.mp (one.single.subset given)
  exact ⟨load, Option.mem_toList.mp waits, due⟩

/-- Sending a beat leaves the requests in the device. -/
theorem PcieCtrl.relayTLP_requests {d d' : PcieCtrl} (fired : d.step .relayTLP = some d')
    : d'.requests = d.requests := by
  obtain ⟨⟨b, device⟩, sent, rfl⟩ := Option.map_eq_some_iff.mp fired
  simp only [PcieCtrl.relayTLP, Option.bind_eq_bind, Option.pure_def, Fifo.bind_deq_eq_some,
    Option.some.injEq, Prod.mk.injEq] at sent
  obtain ⟨_, _, _, _, rfl⟩ := sent
  rfl

/-- The completion that arrives is the one given and not arrived yet. -/
theorem OneLoad.completion {b completion : SendTLP} {device : PcieCtrl}
    (one : OneLoad thread p s log sent unsent)
    (fired : s.device.step .relayTLP = some device)
    (transmitted : s.device.transmitted .relayTLP = some b)
    (arrived : arrivedCompletion s.front b = some completion)
    : ∃ source, unsent = [(source, completion)] := by
  have run : Reach (traced PcieCtrl.step AnswerLog.record) AnswersRequests
      (mkPcieCtrl p, AnswerLog.start) (device, log.record s.device .relayTLP) :=
    one.device.tail (by exact ⟨trivial, trivial⟩) (traced_eq_some.mpr ⟨fired, rfl⟩)
  obtain ⟨answered, left, given⟩ := completions_sent
    (run.forget (r := TransmitLog.record) (f := AnswerLog.transmit) fun _ _ _ => rfl)
  have cut := (completions_record (e := .relayTLP) one.front).2
  have arrival : s.arrival .relayTLP = some completion := by
    rw [Linked.arrival, transmitted, Option.bind_some, arrived]
  have same : answersIn (log.record s.device .relayTLP).transmit.offered = sent ++ unsent := by
    rw [AnswerLog.record, TransmitLog.record, answersIn_append, one.given]
    exact List.append_nil _
  have perm := given.handedOver
  rw [same] at perm
  have split : answered.map Prod.snd = sent.map Prod.snd ++ [completion] := by
    rw [given.sent, cut, arrival, one.arrived, Option.toList_some]
  -- one answer is under way at most, and the completion is one of those handed over
  have few : unsent.length ≤ 1 := by
    have bound := one.single.length_le.trans (HostThread.awaited_length s.host)
    simp only [Linked.answersUnderWay, List.length_append, List.length_map] at bound
    omega
  have lengths := perm.length_eq
  have lengths' := congrArg List.length split
  simp only [List.length_append, List.length_map, List.length_singleton] at lengths lengths'
  cases unsent with
  | nil =>
      simp only [List.length_nil] at lengths
      omega
  | cons entry rest =>
      have alone : rest = [] := by
        rw [← List.length_eq_zero_iff]
        simp only [List.length_cons] at few
        omega
      have noLeft : left = [] := by
        rw [← List.length_eq_zero_iff]
        simp only [List.length_cons] at lengths few
        omega
      subst alone noLeft
      have beats := perm.map Prod.snd
      rw [List.append_nil, split, List.map_append, List.perm_append_left_iff] at beats
      obtain ⟨source, beat⟩ := entry
      have same : beat = completion := by simpa using beats
      exact ⟨source, by rw [same]⟩

/-- With a completion given and not arrived, nothing else is under way. -/
theorem OneLoad.alone {entry : TlpSource × SendTLP}
    (one : OneLoad thread p s log sent [entry])
    : wireDue s.wire = [] ∧ s.device.requests.due = [] ∧ log.hand = [] := by
  have few := one.single.length_le.trans (HostThread.awaited_length s.host)
  simp only [Linked.answersUnderWay, List.length_append, List.length_map,
    List.length_cons] at few
  exact ⟨List.length_eq_zero_iff.mp (by omega), List.length_eq_zero_iff.mp (by omega),
    List.length_eq_zero_iff.mp (by omega)⟩

/-- The completion arrives, and nothing else is under way. -/
theorem OneLoad.arrival (sequential : thread.Sequential) {b completion : SendTLP}
    {device : PcieCtrl} (one : OneLoad thread p s log sent unsent)
    (fired : s.device.step .relayTLP = some device)
    (transmitted : s.device.transmitted .relayTLP = some b)
    (arrived : arrivedCompletion s.front b = some completion)
    : OneLoad thread p
        { host := (thread.take s.host (some completion)).1
          wire := s.wire ++ (thread.take s.host (some completion)).2
          front := openTLP s.front [b]
          device := device }
        (log.record s.device .relayTLP) (sent ++ unsent) [] := by
  obtain ⟨source, rfl⟩ := one.completion fired transmitted arrived
  have allowed : AnswersRequests (s.device, log) .relayTLP := ⟨trivial, trivial⟩
  obtain ⟨fronts, cut⟩ := completions_record (e := .relayTLP) one.front
  have arrival : s.arrival .relayTLP = some completion := by
    rw [Linked.arrival, transmitted, Option.bind_some, arrived]
  -- all that was under way is the completion, so nothing is left
  obtain ⟨emptyWire, noDue, noHand⟩ := one.alone
  rw [← PcieCtrl.relayTLP_requests fired] at noDue
  have noHand : (log.record s.device .relayTLP).hand = [] := by
    simp [AnswerLog.record, PcieCtrl.requestCall, RequestCall.hand, RequestCall.answers,
      RequestCall.takes, noHand]
  have taken : (∀ b ∈ (thread.take s.host (some completion)).2, RequestBeat b)
      ∧ (wireDue (thread.take s.host (some completion)).2).Subperm
        (thread.awaited (thread.take s.host (some completion)).1) := by
    rcases thread.take_cases s.host completion with same | ⟨load, waits, loads⟩
    · rw [same]
      exact ⟨by simp, List.nil_subperm⟩
    · rw [loads]
      exact sequential.loaded _ load _ waits
  refine ⟨one.device.tail allowed (traced_eq_some.mpr ⟨fired, rfl⟩), ?_, ?_, ?_, ?_, ?_⟩
  · rw [fronts, transmitted, Option.toList_some]
  · intro other member
    rcases List.mem_append.mp member with old | new
    · exact one.wire other old
    · exact taken.1 other new
  · rw [AnswerLog.record, TransmitLog.record, answersIn_append, one.given, List.append_nil]
    exact List.append_nil _
  · rw [cut, arrival, List.map_append, one.arrived]
    rfl
  · have wires : wireDue (s.wire ++ (thread.take s.host (some completion)).2)
        = wireDue (thread.take s.host (some completion)).2 := by
      rw [wireDue, List.flatMap_append]
      exact congrArg (· ++ wireDue (thread.take s.host (some completion)).2) emptyWire
    simpa only [Linked.answersUnderWay, wires, noDue, noHand, List.map_nil, List.append_nil]
      using taken.2

end Steps

end BluespecPcie

import BluespecPcie.Bluespec.Machine
import BluespecPcie.PcieCtrl.Bursts
import BluespecPcie.PcieCtrl.TlpStream
import BluespecPcie.PcieCtrl.Transmit

/-! Transmit multiplexing keeps TLPs whole, whatever the sources do and in whatever order. -/

namespace BluespecPcie

open Bluespec

-----------------------------------------------------------------------------------------
-- Complete TLPs
-----------------------------------------------------------------------------------------

/-- The DWs of a beat whose byte enables are set. -/
def keptDWs (b : SendTLP) : List (BitVec 32) :=
  (List.range 4).filterMap (fun i =>
    if b.keep.extractLsb' (4 * i) 4 = 0xf#4 then some (dword b.tlp i) else none)

/-- The payload DWs a header announces: none without the data bit of its format, else its
length field, where zero stands for 1024.
-/
def announcedDWs (header : BitVec 128) : Nat :=
  if header.getLsbD 30 then
    if tlpLength header = 0 then 1024 else (tlpLength header).toNat
  else 0

/-- One complete TLP: every beat but the last is full and without `sendLast`, the last one
carries it, and behind the three header DWs come as many payload DWs as announced.
-/
structure WholeTLP (beats : List SendTLP) : Prop where
  closed : ∃ front final,
    beats = front ++ [final]
    ∧ final.last = 1#1
    ∧ ∀ b ∈ front, b.last = 0#1 ∧ b.keep = 0xffff#16
  dws : ∃ header rest,
    beats = header :: rest
    ∧ (beats.flatMap keptDWs).length = 3 + announcedDWs header.tlp

/-- A full beat keeps its four DWs. -/
theorem keptDWs_full {b : SendTLP} (full : b.keep = 0xffff#16)
    : keptDWs b = [dword b.tlp 0, dword b.tlp 1, dword b.tlp 2, dword b.tlp 3] := by
  rw [keptDWs, full]
  rfl

/-- The last beat of a write, and a TLP without payload, keep three DWs. -/
theorem keptDWs_three {b : SendTLP} (three : b.keep = 0x0fff#16)
    : keptDWs b = [dword b.tlp 0, dword b.tlp 1, dword b.tlp 2] := by
  rw [keptDWs, three]
  rfl

/-- A single full beat is whole if its header announces one DW. -/
theorem wholeTLP_four {b : SendTLP} (full : b.keep = 0xffff#16) (last : b.last = 1#1)
    (one : announcedDWs b.tlp = 1)
    : WholeTLP [b] := by
  refine ⟨⟨[], b, rfl, last, by simp⟩, b, [], rfl, ?_⟩
  simp [keptDWs_full full, one]

/-- A single beat with three DWs is whole if its header announces no payload. -/
theorem wholeTLP_three {b : SendTLP} (three : b.keep = 0x0fff#16) (last : b.last = 1#1)
    (none : announcedDWs b.tlp = 0)
    : WholeTLP [b] := by
  refine ⟨⟨[], b, rfl, last, by simp⟩, b, [], rfl, ?_⟩
  simp [keptDWs_three three, none]

/-- What a header announces is in its first DW. -/
theorem announcedDWs_packDWs (cdw3 cdw2 cdw1 cdw0 : BitVec 32)
    : announcedDWs (packDWs cdw3 cdw2 cdw1 cdw0)
      = if cdw0.getLsbD 30 then
          if dwLength cdw0 = 0 then 1024 else (dwLength cdw0).toNat
        else 0 := by
  have first := (dword_packDWs cdw3 cdw2 cdw1 cdw0).1
  have bit (beat : BitVec 128) : beat.getLsbD 30 = (dword beat 0).getLsbD 30 := by
    rw [dword, BitVec.getLsbD_extractLsb']
    rfl
  rw [announcedDWs, bit, tlpLength_eq, first]

/-- The length field of a header DW is its low part. -/
theorem dwLength_append (x : BitVec 22) (length : BitVec 10)
    : dwLength (x ++ length) = length := by
  apply BitVec.eq_of_getLsbD_eq
  intro i within
  rw [dwLength, BitVec.getLsbD_extractLsb, BitVec.getLsbD_append]
  simp [within]

section Sources

variable (completer rid : BitVec 16) (tag : BitVec 8) (tc : BitVec 3) (td ep : BitVec 1)
  (attr : BitVec 2) (lower : BitVec 7) (data : BitVec 32) (dmaAddr : BitVec 32)
  (words : BitVec 10) (word : DMAWord)

theorem whole_completionTLP
    : WholeTLP [completionTLP completer rid tag tc td ep attr lower data] := by
  refine wholeTLP_four rfl rfl ?_
  rw [completionTLP, announcedDWs_packDWs, dwLength_append]
  have withData : (0#1 ++ 0b10#2 ++ 0xa#5 ++ 0#1 ++ tc ++ 0#4 ++ td ++ ep ++ attr ++ 0#2
      ++ 1#10).getLsbD 30 = true := by
    simp only [BitVec.getLsbD_append]
    rfl
  rw [if_pos withData]
  rfl

theorem whole_writeCompletionTLP
    : WholeTLP [writeCompletionTLP completer rid tag lower] := by
  refine wholeTLP_three rfl rfl ?_
  rw [writeCompletionTLP, announcedDWs_packDWs]
  rfl

theorem whole_readRequestTLP
    : WholeTLP [readRequestTLP completer tag dmaAddr words] := by
  refine wholeTLP_three rfl rfl ?_
  rw [readRequestTLP, memoryHeader, announcedDWs_packDWs]
  have noData : (0#1 ++ 0b00#2 ++ 0#5 ++ 0#1 ++ 0#3 ++ 0#4 ++ 0#1 ++ 0#1 ++ 0#2 ++ 0#2
      ++ (words <<< 2)).getLsbD 30 = false := by
    simp only [BitVec.getLsbD_append]
    rfl
  rw [noData]
  rfl

/-- The header of a write burst announces its words, four DWs each. -/
theorem announcedDWs_writeHeaderTLP (some : 0 < words.toNat) (few : words.toNat ≤ 8)
    : announcedDWs (writeHeaderTLP completer tag dmaAddr words word).tlp
      = 4 * words.toNat := by
  rw [writeHeaderTLP, memoryHeader, announcedDWs_packDWs, dwLength_append]
  have withData : (0#1 ++ 0b10#2 ++ 0#5 ++ 0#1 ++ 0#3 ++ 0#4 ++ 0#1 ++ 0#1 ++ 0#2 ++ 0#2
      ++ (words <<< 2)).getLsbD 30 = true := by
    simp only [BitVec.getLsbD_append]
    rfl
  have length : (words <<< 2).toNat = 4 * words.toNat := by
    rw [BitVec.toNat_shiftLeft, Nat.shiftLeft_eq]
    omega
  have nonzero : words <<< 2 ≠ 0 := by
    intro zero
    rw [zero] at length
    simp only [BitVec.ofNat_eq_ofNat, BitVec.toNat_ofNat] at length
    omega
  rw [if_pos withData, if_neg nonzero, length]

end Sources

/-- A beat that is not the write generator's is a whole TLP. -/
theorem offered_whole {s : PcieCtrl} {e : Event} {source : TlpSource} {tlp : SendTLP}
    (offers : s.offered e = some (source, tlp)) (single : source ≠ .write)
    : WholeTLP [tlp] := by
  cases e <;>
    simp only [PcieCtrl.offered, Option.bind_eq_bind, Option.pure_def, reduceCtorEq,
      Option.bind_eq_some_iff, Option.some.injEq, Prod.mk.injEq] at offers
  case filterStatReadTLP =>
    obtain ⟨beat, _, offers⟩ := offers
    split at offers
    next read =>
      simp only [Option.bind_eq_some_iff, Option.some.injEq, Prod.mk.injEq] at offers
      obtain ⟨data, _, rfl, rfl⟩ := offers
      exact whole_completionTLP ..
    next => cases offers
  case procIOWrite =>
    obtain ⟨beat, _, offers⟩ := offers
    split at offers
    next io =>
      cases offers
      exact whole_writeCompletionTLP ..
    next => cases offers
  case completeIORead =>
    obtain ⟨_, _, _, _, rfl, rfl⟩ := offers
    exact whole_completionTLP ..
  case generateDmaReadTLP =>
    obtain ⟨_, _, _, _, rfl, rfl⟩ := offers
    exact whole_readRequestTLP ..
  case dataSend ioreq data =>
    obtain ⟨rfl, rfl⟩ := offers
    exact whole_completionTLP ..
  case generateHeaderTLP =>
    obtain ⟨_, _, _, _, _, _, rfl, _⟩ := offers
    exact absurd rfl single
  case generateDataTLP =>
    split at offers
    next =>
      simp only [Option.bind_eq_some_iff, Option.some.injEq, Prod.mk.injEq] at offers
      obtain ⟨_, _, rfl, _⟩ := offers
      exact absurd rfl single
    next =>
      simp only [Option.some.injEq, Prod.mk.injEq] at offers
      exact absurd offers.1.symm single

-----------------------------------------------------------------------------------------
-- The beats as the receiver of the stream cuts them
-----------------------------------------------------------------------------------------

/-- The TLPs of a beat sequence, cut behind each `sendLast`; `front` are the beats of the
TLP under way.
-/
def cutTLPs : List SendTLP → List SendTLP → List (List SendTLP)
  | _, [] => []
  | front, b :: rest =>
      if b.last = 1#1 then (front ++ [b]) :: cutTLPs [] rest else cutTLPs (front ++ [b]) rest

/-- What is left open behind the TLPs cut. -/
def openTLP : List SendTLP → List SendTLP → List SendTLP
  | front, [] => front
  | front, b :: rest =>
      if b.last = 1#1 then openTLP [] rest else openTLP (front ++ [b]) rest

/-- One more beat closes the open TLP or extends it; induction on the beats before it. -/
theorem cutTLPs_concat (front xs : List SendTLP) (b : SendTLP)
    : cutTLPs front (xs ++ [b])
        = cutTLPs front xs ++ (if b.last = 1#1 then [openTLP front xs ++ [b]] else [])
      ∧ openTLP front (xs ++ [b]) = if b.last = 1#1 then [] else openTLP front xs ++ [b] := by
  induction xs generalizing front with
  | nil =>
      simp only [List.nil_append, cutTLPs, openTLP, and_self]
  | cons other xs ih =>
      simp only [List.cons_append, cutTLPs, openTLP]
      split
      next =>
        rw [(ih []).1, (ih []).2]
        exact ⟨rfl, rfl⟩
      next => exact ih _

/-- Beats without `sendLast` only extend the TLP under way. -/
theorem cutTLPs_open {middle : List SendTLP} (unfinished : ∀ b ∈ middle, b.last = 0#1)
    (front rest : List SendTLP)
    : cutTLPs front (middle ++ rest) = cutTLPs (front ++ middle) rest := by
  induction middle generalizing front with
  | nil => simp
  | cons b middle ih =>
      have more : b.last = 0#1 := unfinished b (by simp)
      have goOn : ¬b.last = 1#1 := by simp [more]
      rw [List.cons_append, cutTLPs, if_neg goOn,
        ih (fun other member => unfinished other (by simp [member]))]
      simp

/-- A whole TLP is cut off as one. -/
theorem cutTLPs_whole {tlp : List SendTLP} (whole : WholeTLP tlp) (rest : List SendTLP)
    : cutTLPs [] (tlp ++ rest) = tlp :: cutTLPs [] rest := by
  obtain ⟨front, final, rfl, last, unfinished⟩ := whole.closed
  rw [List.append_assoc, cutTLPs_open (fun b member => (unfinished b member).1)]
  simp [cutTLPs, last]

/-- A sequence of whole TLPs and an open one is cut into these TLPs, by induction. -/
theorem cutTLPs_flatten {tlps : List (List SendTLP)} {burst : List SendTLP}
    (whole : ∀ t ∈ tlps, WholeTLP t) (unfinished : ∀ b ∈ burst, b.last = 0#1)
    : cutTLPs [] (tlps.flatten ++ burst) = tlps := by
  induction tlps with
  | nil =>
      have none := cutTLPs_open unfinished [] []
      simpa [cutTLPs] using none
  | cons t tlps ih =>
      rw [List.flatten_cons, List.append_assoc, cutTLPs_whole (whole t (by simp)),
        ih (fun other member => whole other (by simp [member]))]

/-- More beats only add TLPs behind those already cut. -/
theorem cutTLPs_append (front xs ys : List SendTLP)
    : (cutTLPs front xs).IsPrefix (cutTLPs front (xs ++ ys)) := by
  induction xs generalizing front with
  | nil => exact List.nil_prefix
  | cons b xs ih =>
      rw [List.cons_append, cutTLPs, cutTLPs]
      split
      next => exact List.prefix_cons_inj _ |>.mpr (ih [])
      next => exact ih _

-----------------------------------------------------------------------------------------
-- What the sources handed over, and where it is
-----------------------------------------------------------------------------------------

/-- The beats handed over by the sources and the beats sent, oldest first. -/
structure TransmitLog where
  offered : List (TlpSource × SendTLP)
  sent : List SendTLP

/-- Nothing has happened. -/
def TransmitLog.start : TransmitLog := ⟨[], []⟩

def TransmitLog.record (s : PcieCtrl) (e : Event) (log : TransmitLog) : TransmitLog where
  offered := log.offered ++ (s.offered e).toList
  sent := log.sent ++ (s.transmitted e).toList

/-- What one source contributed to a labelled sequence. -/
def ofSource {α : Type} (source : TlpSource) (entries : List (TlpSource × α)) : List α :=
  (entries.filter (fun entry => entry.1 = source)).map Prod.snd

/-- What one source contributed to two sequences in a row. -/
theorem ofSource_append {α : Type} (source : TlpSource) (xs ys : List (TlpSource × α))
    : ofSource source (xs ++ ys) = ofSource source xs ++ ofSource source ys := by
  simp [ofSource]

/-- One entry is its source's. -/
theorem ofSource_singleton {α : Type} (source other : TlpSource) (x : α)
    : ofSource source [(other, x)] = if other = source then [x] else [] := by
  by_cases same : other = source
  · simp [ofSource, same]
  · simp [ofSource, same]

/-- The contents of the merge tree by source, seen by port. -/
def byPort (waiting : TlpSource → List SendTLP) : Nat → List SendTLP
  | 0 => waiting .status
  | 1 => waiting .ioWrite
  | 2 => waiting .config
  | 3 => waiting .readRequest
  | 5 => waiting .user
  | _ => []

/-- A change at a source is a change at its port. -/
theorem byPort_update {source : TlpSource} {port : Nat} (wired : source.port = some port)
    (waiting : TlpSource → List SendTLP) (beats : List SendTLP)
    : byPort (Function.update waiting source beats)
      = Function.update (byPort waiting) port beats := by
  funext other
  cases source <;> cases wired <;> unfold byPort Function.update <;> split <;> simp_all

/-- Only ports of sources hold anything. -/
theorem byPort_cons {waiting : TlpSource → List SendTLP} {port : Nat} {b : SendTLP}
    {rest : List SendTLP} (held : byPort waiting port = b :: rest)
    : ∃ source, source.port = some port ∧ waiting source = b :: rest := by
  unfold byPort at held
  split at held
  · exact ⟨.status, rfl, held⟩
  · exact ⟨.ioWrite, rfl, held⟩
  · exact ⟨.config, rfl, held⟩
  · exact ⟨.readRequest, rfl, held⟩
  · exact ⟨.user, rfl, held⟩
  · cases held

-----------------------------------------------------------------------------------------
-- The invariant
-----------------------------------------------------------------------------------------

/-- The beats generated so far of the write burst under way, with `remain` beats to come. -/
inductive UnderWay : BitVec 10 → List SendTLP → Prop
  | idle : UnderWay 0 []
  | burst {remain : BitVec 10} {header : SendTLP} {rest : List SendTLP} {words : Nat}
    (busy : remain > 0)
    (full : ∀ b ∈ header :: rest, b.last = 0#1 ∧ b.keep = 0xffff#16)
    (announced : announcedDWs header.tlp = 4 * words)
    (left : (header :: rest).length + remain.toNat = words + 1)
    : UnderWay remain (header :: rest)

/-- No beat of an open burst carries `sendLast`. -/
theorem UnderWay.unfinished {remain : BitVec 10} {burst : List SendTLP}
    (underWay : UnderWay remain burst)
    : ∀ b ∈ burst, b.last = 0#1 := by
  cases underWay with
  | idle => simp
  | burst _ full _ _ => exact fun b member => (full b member).1

/-- A middle beat extends the burst. -/
theorem UnderWay.more {remain : BitVec 10} {burst : List SendTLP} {b : SendTLP}
    (underWay : UnderWay remain burst) (more : remain > 1)
    (middle : b.last = 0#1 ∧ b.keep = 0xffff#16)
    : UnderWay (remain - 1) (burst ++ [b]) := by
  cases underWay with
  | idle => exact absurd more (by decide)
  | @burst _ header rest words busy full announced left =>
      refine @UnderWay.burst _ header (rest ++ [b]) words (by bv_omega) ?_ announced ?_
      · intro other member
        rcases List.mem_append.mp (List.cons_append ▸ member) with old | new
        · exact full other old
        · rw [List.mem_singleton.mp new]
          exact middle
      · have one : (1 : BitVec 10).toNat = 1 := rfl
        have bigger : (1 : BitVec 10).toNat < remain.toNat := BitVec.lt_def.mp more
        simp only [List.length_cons, List.length_append, List.length_nil] at left ⊢
        rw [BitVec.toNat_sub_of_le (BitVec.le_of_lt more)]
        omega

/-- DWs of full beats. -/
theorem length_keptDWs_full {beats : List SendTLP} (full : ∀ b ∈ beats, b.keep = 0xffff#16)
    : (beats.flatMap keptDWs).length = 4 * beats.length := by
  induction beats with
  | nil => rfl
  | cons b beats ih =>
      rw [List.flatMap_cons, List.length_append, keptDWs_full (full b (by simp)),
        ih (fun other member => full other (by simp [member]))]
      simp only [List.length_cons, List.length_nil]
      omega

/-- The last beat makes the burst a whole TLP. -/
theorem UnderWay.final {remain : BitVec 10} {burst : List SendTLP} {b : SendTLP}
    (underWay : UnderWay remain burst) (busy : remain > 0) (final : ¬remain > 1)
    (last : b.last = 1#1) (three : b.keep = 0x0fff#16)
    : remain = 1 ∧ WholeTLP (burst ++ [b]) := by
  have one : remain = 1 := by bv_omega
  refine ⟨one, ?_⟩
  cases underWay with
  | idle => exact absurd busy (by decide)
  | @burst _ header rest words _ full announced left =>
      refine ⟨⟨header :: rest, b, rfl, last, full⟩, header, rest ++ [b], rfl, ?_⟩
      rw [List.flatMap_append, List.length_append, announced,
        length_keptDWs_full (fun other member => (full other member).2),
        List.flatMap_singleton, keptDWs_three three]
      have value : remain.toNat = 1 := by rw [one]; rfl
      simp only [List.length_cons, List.length_nil] at left ⊢
      omega

/-- What a source has handed over beyond what the tree holds and what went through. -/
def PcieCtrl.notMerged (s : PcieCtrl) (burst : List SendTLP) : TlpSource → List SendTLP
  | .user => s.tx.userSendTLPQ.items
  | .write => burst
  | _ => []

/-- The beats through the send queue are the whole TLPs `order` and the open `burst`; the
merge tree holds the beats `waiting`, each a whole TLP; and what a source handed over went
through in `order`, or waits, in the order it was handed over.
-/
structure Multiplexed (s : PcieCtrl) (log : TransmitLog)
    (order : List (TlpSource × List SendTLP)) (burst : List SendTLP)
    (waiting : TlpSource → List SendTLP) : Prop where
  beats : log.sent ++ s.tx.sendTLPQ.items = order.flatMap Prod.snd ++ burst
  whole : ∀ t ∈ order, WholeTLP t.2
  underWay : UnderWay s.writes.dataWordsRemain burst
  tree : MergeN.Holds 8 s.tx.sendTLPm (byPort waiting)
  noWrites : waiting .write = []
  singles : ∀ source, ∀ b ∈ waiting source, WholeTLP [b]
  users : ∀ b ∈ s.tx.userSendTLPQ.items, WholeTLP [b]
  sources : ∀ source,
    ofSource source log.offered
      = (ofSource source order).flatten ++ waiting source ++ s.notMerged burst source

/-- Page requests of writes ask for one to eight words, since requests stay word aligned. -/
structure PageRequestsSized (s : PcieCtrl) : Prop where
  aligned : WordAligned s.writes.dmaStartAddr
  sized : ∀ req ∈ s.writes.dmaPageWriteReqQ.items, 0 < req.words.toNat ∧ req.words.toNat ≤ 8

open PcieCtrl in
/-- Each event keeps the page requests sized; witness: only the splitter adds any. -/
theorem PageRequestsSized.step {s s' : PcieCtrl} {e : Event} (inv : PageRequestsSized s)
    (fires : s.step e = some s')
    : PageRequestsSized s' := by
  have frame := (step_unchanged fires).writes
  cases e
  case dmaWriteReq addr words =>
    obtain ⟨_, _, rfl⟩ := dmaWriteReq_cases fires
    exact ⟨inv.aligned, inv.sized⟩
  case dmaWriteData data =>
    obtain ⟨_, _, rfl⟩ := dmaWriteData_cases fires
    exact ⟨inv.aligned, inv.sized⟩
  case splitDmaWriteReq =>
    obtain ⟨_, _, _, _, rfl⟩ := splitDmaWriteReq_cases fires
    exact ⟨wordAligned_alignWord _, inv.sized⟩
  case relayFreeWriteTag =>
    obtain ⟨_, _, _, _, _, rfl⟩ := relayFreeWriteTag_cases fires
    exact ⟨inv.aligned, inv.sized⟩
  case splitDmaWriteReq2 =>
    obtain ⟨busy, tag, _, _, pageQ, _, _, _, _, put, _, _, rfl⟩ :=
      splitDmaWriteReq2_cases fires
    have covers := splitRead_covers inv.aligned busy
    rw [← splitWrite_eq] at covers
    refine ⟨covers.aligned, ?_⟩
    intro req member
    rw [put] at member
    rcases List.mem_append.mp member with old | new
    · exact inv.sized req old
    · rw [List.mem_singleton.mp new]
      exact ⟨covers.nonempty, covers.short⟩
  case generateHeaderTLP =>
    obtain ⟨_, req, pageQ, _, _, _, _, _, _, taken, _, _, _, rfl⟩ :=
      generateHeaderTLP_cases fires
    exact ⟨inv.aligned, fun other member => inv.sized other (by simp [taken, member])⟩
  case generateDataTLP =>
    rcases generateDataTLP_cases fires with ⟨_, _, _, _, _, _, rfl⟩
      | ⟨_, _, _, _, _, _, _, _, _, rfl⟩
    · exact ⟨inv.aligned, inv.sized⟩
    · exact ⟨inv.aligned, inv.sized⟩
  all_goals
    obtain ⟨aligned, sized⟩ := inv
    constructor
    · rw [frame (by simp [Event.parts])]
      exact aligned
    · rw [frame (by simp [Event.parts])]
      exact sized

/-- How a step moves the TLPs through the send queue: not at all, by a TLP out of the merge
tree between bursts, or by a beat that opens, extends or closes a write burst.
-/
inductive OrderStep (remain remain' : BitVec 10) (order : List (TlpSource × List SendTLP))
    (burst : List SendTLP)
    : List (TlpSource × List SendTLP) → List SendTLP → Prop
  | same (kept : remain' = remain) : OrderStep remain remain' order burst order burst
  | leave {source : TlpSource} {tlp : SendTLP} (single : source ≠ .write)
    (idle : remain = 0) (kept : remain' = remain) (none : burst = [])
    : OrderStep remain remain' order burst (order ++ [(source, [tlp])]) burst
  | opens {header : SendTLP} (idle : remain = 0) (busy : remain' > 0) (none : burst = [])
    (announced : announcedDWs header.tlp = 4 * remain'.toNat)
    : OrderStep remain remain' order burst order [header]
  | grows {tlp : SendTLP} (more : remain > 1) (next : remain' = remain - 1)
    (some : burst ≠ [])
    : OrderStep remain remain' order burst order (burst ++ [tlp])
  | closes {tlp : SendTLP} (final : remain = 1) (next : remain' = 0) (some : burst ≠ [])
    : OrderStep remain remain' order burst (order ++ [(.write, burst ++ [tlp])]) []

/-- A busy generator has opened its burst. -/
theorem UnderWay.nonempty {remain : BitVec 10} {burst : List SendTLP}
    (underWay : UnderWay remain burst) (busy : remain > 0)
    : burst ≠ [] := by
  cases underWay with
  | idle => exact absurd busy (by decide)
  | burst _ _ _ _ => simp

/-- An idle generator has no burst open. -/
theorem UnderWay.empty {remain : BitVec 10} {burst : List SendTLP}
    (underWay : UnderWay remain burst) (idle : remain = 0)
    : burst = [] := by
  subst idle
  cases underWay with
  | idle => rfl
  | burst busy _ _ _ => exact absurd busy (by decide)

section Preservation

variable {s s' : PcieCtrl} {log : TransmitLog} {order : List (TlpSource × List SendTLP)}
  {burst : List SendTLP} {waiting : TlpSource → List SendTLP}

/-- A beat of a source at the merge tree waits there behind the source's earlier ones. -/
theorem Multiplexed.enter (inv : Multiplexed s log order burst waiting) {source : TlpSource}
    {port : Nat} {tlp : SendTLP} {sendTLPm : MergeN SendTLP}
    (wired : source.port = some port) (notUser : source ≠ .user)
    (put : s.tx.sendTLPm.enq 8 port tlp = some sendTLPm) (whole : WholeTLP [tlp])
    (tx : s'.tx = { s.tx with sendTLPm := sendTLPm })
    (remain : s'.writes.dataWordsRemain = s.writes.dataWordsRemain)
    : Multiplexed s' ⟨log.offered ++ [(source, tlp)], log.sent⟩ order burst
        (Function.update waiting source (waiting source ++ [tlp])) := by
  have notWrite : source ≠ .write := by
    rintro rfl
    cases wired
  have within : port < 8 := by
    cases source <;> cases wired <;> decide
  have held : byPort waiting port = waiting source := by
    cases source <;> cases wired <;> rfl
  have tree := inv.tree.enq within put
  rw [held, ← byPort_update wired] at tree
  refine ⟨by rw [tx]; exact inv.beats, inv.whole, remain ▸ inv.underWay, by rw [tx]; exact tree,
    ?_, ?_, by rw [tx]; exact inv.users, ?_⟩
  · rw [Function.update_of_ne notWrite.symm]
    exact inv.noWrites
  · intro other b member
    by_cases mine : other = source
    · subst mine
      rw [Function.update_self] at member
      rcases List.mem_append.mp member with old | new
      · exact inv.singles other b old
      · rw [List.mem_singleton.mp new]
        exact whole
    · rw [Function.update_of_ne mine] at member
      exact inv.singles other b member
  · intro other
    have same : s'.notMerged burst other = s.notMerged burst other := by
      cases other <;> simp only [PcieCtrl.notMerged, tx]
    rw [ofSource_append, inv.sources other, ofSource_singleton, same]
    by_cases mine : other = source
    · subst mine
      have nothing : s.notMerged burst other = [] := by
        cases other <;> first | rfl | exact absurd rfl notUser | exact absurd rfl notWrite
      rw [if_pos rfl, Function.update_self, nothing]
      simp
    · rw [if_neg (fun same => mine same.symm), Function.update_of_ne mine, List.append_nil]

/-- A user TLP moves from its queue into the merge tree. -/
theorem Multiplexed.relayUser (inv : Multiplexed s log order burst waiting) {tlp : SendTLP}
    {userSendTLPQ : Fifo SendTLP 2} {sendTLPm : MergeN SendTLP}
    (taken : s.tx.userSendTLPQ.items = tlp :: userSendTLPQ.items)
    (put : s.tx.sendTLPm.enq 8 5 tlp = some sendTLPm)
    (tx : s'.tx = { s.tx with userSendTLPQ := userSendTLPQ, sendTLPm := sendTLPm })
    (remain : s'.writes.dataWordsRemain = s.writes.dataWordsRemain)
    : Multiplexed s' log order burst
        (Function.update waiting .user (waiting .user ++ [tlp])) := by
  have tree := inv.tree.enq (by decide) put
  have wired : TlpSource.user.port = some 5 := rfl
  rw [← byPort_update wired] at tree
  refine ⟨by rw [tx]; exact inv.beats, inv.whole, remain ▸ inv.underWay, by rw [tx]; exact tree,
    inv.noWrites, ?_, ?_, ?_⟩
  · intro other b member
    by_cases mine : other = .user
    · subst mine
      rw [Function.update_self] at member
      rcases List.mem_append.mp member with old | new
      · exact inv.singles .user b old
      · rw [List.mem_singleton.mp new]
        exact inv.users tlp (by simp [taken])
    · rw [Function.update_of_ne mine] at member
      exact inv.singles other b member
  · rw [tx]
    exact fun b member => inv.users b (by simp [taken, member])
  · intro other
    rw [inv.sources other]
    by_cases mine : other = .user
    · subst mine
      simp [PcieCtrl.notMerged, tx, taken]
    · rw [Function.update_of_ne mine]
      cases other <;> first | rfl | exact absurd rfl mine

/-- Between bursts, a beat of the merge tree goes to the send queue, a TLP of its own. -/
theorem Multiplexed.leave (inv : Multiplexed s log order burst waiting) {tlp : SendTLP}
    {sendTLPm : MergeN SendTLP} {sendTLPQ : Fifo SendTLP 8}
    (idle : s.writes.dataWordsRemain = 0)
    (taken : s.tx.sendTLPm.deq = some (tlp, sendTLPm))
    (put : sendTLPQ.items = s.tx.sendTLPQ.items ++ [tlp])
    (tx : s'.tx = { s.tx with sendTLPm := sendTLPm, sendTLPQ := sendTLPQ })
    (remain : s'.writes.dataWordsRemain = s.writes.dataWordsRemain)
    : ∃ source rest,
        source ≠ .write
        ∧ waiting source = tlp :: rest
        ∧ Multiplexed s' log (order ++ [(source, [tlp])]) burst
            (Function.update waiting source rest) := by
  obtain ⟨port, rest, within, held, tree⟩ := inv.tree.deq taken
  obtain ⟨source, wired, held⟩ := byPort_cons held
  rw [← byPort_update wired] at tree
  have empty := inv.underWay.empty idle
  have notWrite : source ≠ .write := by
    rintro rfl
    cases wired
  refine ⟨source, rest, notWrite, held, ?_, ?_, remain ▸ inv.underWay, by rw [tx]; exact tree, ?_, ?_,
    by rw [tx]; exact inv.users, ?_⟩
  · have beats := inv.beats
    subst empty
    rw [List.append_nil] at beats ⊢
    rw [tx, List.flatMap_append, ← beats]
    simp [put]
  · intro t member
    rcases List.mem_append.mp member with old | new
    · exact inv.whole t old
    · rw [List.mem_singleton.mp new]
      exact inv.singles source tlp (by simp [held])
  · rw [Function.update_of_ne notWrite.symm]
    exact inv.noWrites
  · intro other b member
    by_cases mine : other = source
    · subst mine
      rw [Function.update_self] at member
      exact inv.singles other b (by simp [held, member])
    · rw [Function.update_of_ne mine] at member
      exact inv.singles other b member
  · intro other
    have same : s'.notMerged burst other = s.notMerged burst other := by
      cases other <;> simp only [PcieCtrl.notMerged, tx]
    rw [inv.sources other, ofSource_append, ofSource_singleton, same]
    by_cases mine : other = source
    · subst mine
      simp [held]
    · rw [if_neg (fun same => mine same.symm), Function.update_of_ne mine, List.append_nil]

/-- A beat of the write generator goes to the send queue; it opens a burst, extends it, or
makes it a TLP.
-/
theorem Multiplexed.generate (inv : Multiplexed s log order burst waiting) {tlp : SendTLP}
    {sendTLPQ : Fifo SendTLP 8} {order' : List (TlpSource × List SendTLP)}
    {burst' : List SendTLP} (put : sendTLPQ.items = s.tx.sendTLPQ.items ++ [tlp])
    (tx : s'.tx = { s.tx with sendTLPQ := sendTLPQ })
    (underWay : UnderWay s'.writes.dataWordsRemain burst')
    (whole : ∀ t ∈ order', WholeTLP t.2)
    (shape : (order' = order ∧ burst' = burst ++ [tlp])
      ∨ (order' = order ++ [(.write, burst ++ [tlp])] ∧ burst' = []))
    : Multiplexed s' ⟨log.offered ++ [(.write, tlp)], log.sent⟩ order' burst' waiting := by
  refine ⟨?_, whole, underWay, by rw [tx]; exact inv.tree, inv.noWrites, inv.singles,
    by rw [tx]; exact inv.users, ?_⟩
  · have queued : log.sent ++ s'.tx.sendTLPQ.items
        = order.flatMap Prod.snd ++ burst ++ [tlp] := by
      rw [tx, ← inv.beats]
      simp [put]
    rw [queued]
    rcases shape with ⟨rfl, rfl⟩ | ⟨rfl, rfl⟩ <;> simp
  · intro source
    rw [ofSource_append, inv.sources source, ofSource_singleton]
    by_cases mine : source = .write
    · subst mine
      rcases shape with ⟨rfl, rfl⟩ | ⟨rfl, rfl⟩
      · simp [PcieCtrl.notMerged, inv.noWrites]
      · simp [PcieCtrl.notMerged, inv.noWrites, ofSource_append, ofSource_singleton]
    · have same : s'.notMerged burst' source = s.notMerged burst source := by
        cases source <;> first | rfl | exact absurd rfl mine | simp only [PcieCtrl.notMerged, tx]
      have other : ofSource source order' = ofSource source order := by
        rcases shape with ⟨rfl, _⟩ | ⟨rfl, _⟩
        · rfl
        · rw [ofSource_append, ofSource_singleton, if_neg (fun same => mine same.symm),
            List.append_nil]
      rw [if_neg (fun same => mine same.symm), same, other, List.append_nil]

/-- Every transmit step keeps the arrangement. -/
theorem Multiplexed.step {offer : Option (TlpSource × SendTLP)} {send : Option SendTLP}
    (inv : Multiplexed s log order burst waiting) (sized : PageRequestsSized s)
    (single : ∀ source tlp, offer = some (source, tlp) → source ≠ .write → WholeTLP [tlp])
    (fires : TxStep s s' offer send)
    : ∃ order' burst' waiting',
        Multiplexed s' ⟨log.offered ++ offer.toList, log.sent ++ send.toList⟩ order' burst'
          waiting'
        ∧ OrderStep s.writes.dataWordsRemain s'.writes.dataWordsRemain order burst order'
          burst' := by
  cases fires with
  | other tx remain =>
      refine ⟨order, burst, waiting, ?_, .same remain⟩
      simp only [Option.toList_none, List.append_nil]
      obtain ⟨beats, whole, underWay, tree, noWrites, singles, users, sources⟩ := inv
      refine ⟨tx ▸ beats, whole, remain ▸ underWay, tx ▸ tree, noWrites, singles, tx ▸ users, ?_⟩
      intro source
      rw [sources source]
      cases source <;> simp only [PcieCtrl.notMerged, tx]
  | @single source port tlp sendTLPm wired notUser put tx remain =>
      have notWrite : source ≠ .write := by
        rintro rfl
        cases wired
      simp only [Option.toList_none, List.append_nil]
      exact ⟨order, burst, _, inv.enter wired notUser put (single source tlp rfl notWrite) tx
        remain, .same remain⟩
  | @dataSend tlp userSendTLPQ put tx remain =>
      refine ⟨order, burst, waiting, ?_, .same remain⟩
      simp only [Option.toList_none, List.append_nil, Option.toList_some]
      refine ⟨by rw [tx]; exact inv.beats, inv.whole, remain ▸ inv.underWay,
        by rw [tx]; exact inv.tree, inv.noWrites, inv.singles, ?_, ?_⟩
      · intro b member
        rw [tx] at member
        rcases List.mem_append.mp (put ▸ member) with old | new
        · exact inv.users b old
        · rw [List.mem_singleton.mp new]
          exact single .user tlp rfl (by decide)
      · intro source
        rw [ofSource_append, inv.sources source, ofSource_singleton]
        by_cases mine : source = .user
        · subst mine
          simp [PcieCtrl.notMerged, tx, put]
        · rw [if_neg (fun same => mine same.symm), List.append_nil]
          cases source <;> first | rfl | exact absurd rfl mine
  | @relayUserSendTLP tlp userSendTLPQ sendTLPm taken put tx remain =>
      simp only [Option.toList_none, List.append_nil]
      exact ⟨order, burst, _, inv.relayUser taken put tx remain, .same remain⟩
  | @merge rule sendTLPm fired tx remain =>
      refine ⟨order, burst, waiting, ?_, .same remain⟩
      simp only [Option.toList_none, List.append_nil]
      refine ⟨by rw [tx]; exact inv.beats, inv.whole, remain ▸ inv.underWay,
        by rw [tx]; exact inv.tree.fire fired, inv.noWrites, inv.singles,
        by rw [tx]; exact inv.users, ?_⟩
      intro source
      rw [inv.sources source]
      cases source <;> simp only [PcieCtrl.notMerged, tx]
  | @relayTLPm tlp sendTLPm sendTLPQ idle taken put tx remain =>
      simp only [Option.toList_none, List.append_nil]
      obtain ⟨source, rest, notWrite, _, next⟩ := inv.leave idle taken put tx remain
      exact ⟨_, _, _, next, .leave notWrite idle remain (inv.underWay.empty idle)⟩
  | @header tlp req busAddr data sendTLPQ idle requested built put tx remain =>
      simp only [Option.toList_none, List.append_nil]
      obtain ⟨some, few⟩ := sized.sized req requested
      have empty := inv.underWay.empty idle
      subst empty built
      have announced := announcedDWs_writeHeaderTLP s.cfg_completer_id req.tag
        (busAddr + req.addr) req.words data some few
      refine ⟨order, [_], waiting, inv.generate put tx ?_ inv.whole (.inl ⟨rfl, rfl⟩),
        .opens idle (by rw [remain]; bv_omega) rfl (by rw [remain]; exact announced)⟩
      rw [remain]
      refine @UnderWay.burst _ _ [] req.words.toNat (by bv_omega) ?_ announced ?_
      · intro b member
        rw [List.mem_singleton.mp member]
        exact ⟨rfl, rfl⟩
      · simp only [List.length_singleton]
        omega
  | @data tlp beatData sendTLPQ busy built put tx remain =>
      simp only [Option.toList_none, List.append_nil]
      by_cases more : s.writes.dataWordsRemain > 1
      · rw [if_pos more] at built
        subst built
        refine ⟨order, burst ++ [_], waiting,
          inv.generate put tx ?_ inv.whole (.inl ⟨rfl, rfl⟩),
          .grows more remain (inv.underWay.nonempty busy)⟩
        rw [remain]
        exact inv.underWay.more more ⟨rfl, rfl⟩
      · rw [if_neg more] at built
        subst built
        obtain ⟨one, closed⟩ := inv.underWay.final
          (b := writeDataTLP beatData 0x0fff#16 1#1) busy more rfl rfl
        refine ⟨_, [], waiting, inv.generate put tx ?_ ?_ (.inr ⟨rfl, rfl⟩),
          .closes one (by rw [remain, one]; rfl) (inv.underWay.nonempty busy)⟩
        · rw [remain, one]
          exact .idle
        · intro t member
          rcases List.mem_append.mp member with old | new
          · exact inv.whole t old
          · rw [List.mem_singleton.mp new]
            exact closed
  | @relayTLP tlp sendTLPQ taken tx remain =>
      refine ⟨order, burst, waiting, ?_, .same remain⟩
      simp only [Option.toList_none, List.append_nil, Option.toList_some]
      refine ⟨?_, inv.whole, remain ▸ inv.underWay,
        by rw [tx]; exact inv.tree, inv.noWrites, inv.singles, by rw [tx]; exact inv.users, ?_⟩
      · rw [← inv.beats, tx, taken]
        simp
      · intro source
        rw [inv.sources source]
        cases source <;> simp only [PcieCtrl.notMerged, tx]

end Preservation

-----------------------------------------------------------------------------------------
-- Whole runs
-----------------------------------------------------------------------------------------

/-- At reset nothing is under way. -/
theorem Multiplexed.init (p : PowerUp)
    : Multiplexed (mkPcieCtrl p) .start [] [] (fun _ => []) := by
  refine ⟨rfl, by simp, .idle, ?_, rfl, by simp, by simp [mkPcieCtrl], ?_⟩
  · have empty : byPort (fun _ => []) = fun _ => [] := by
      funext port
      unfold byPort
      split <;> rfl
    rw [empty]
    exact MergeN.Holds.init
  · intro source
    cases source <;> rfl

/-- At reset no page request waits. -/
theorem PageRequestsSized.init (p : PowerUp)
    : PageRequestsSized (mkPcieCtrl p) :=
  ⟨rfl, by simp [mkPcieCtrl]⟩

/-- After every run from reset the beats through the send queue are whole TLPs and an open
burst, and every source's beats went through, or wait, in order; induction on the run.
-/
theorem multiplexed {p : PowerUp} {state : PcieCtrl × TransmitLog}
    (run : Reach (traced PcieCtrl.step TransmitLog.record) anyEvent
      (mkPcieCtrl p, TransmitLog.start) state)
    : ∃ order burst waiting, Multiplexed state.1 state.2 order burst waiting := by
  have all : (∃ order burst waiting, Multiplexed state.1 state.2 order burst waiting)
      ∧ PageRequestsSized state.1 := by
    refine run.invariant (P := fun state => (∃ order burst waiting,
      Multiplexed state.1 state.2 order burst waiting) ∧ PageRequestsSized state.1) ?_ ?_
    · exact ⟨⟨[], [], fun _ => [], Multiplexed.init p⟩, PageRequestsSized.init p⟩
    · rintro ⟨s, log⟩ e ⟨s', log'⟩ ⟨⟨order, burst, waiting, inv⟩, sized⟩ _ fires
      obtain ⟨fired, rfl⟩ := traced_eq_some.mp fires
      obtain ⟨order', burst', waiting', next, _⟩ := inv.step sized
        (fun _ _ offers single => offered_whole offers single) (tx_step fired)
      exact ⟨⟨order', burst', waiting', next⟩, sized.step fired⟩
  exact all.1

/-- The beats sent and queued are complete TLPs `order`, each of one source, followed by the
beats of a write burst under way; cut at `sendLast`, the beats sent so far are the first of
these TLPs; and the beats each source handed over are, in order and each once, those of its
TLPs and those that still wait in the merge tree or before it, where none of a write waits.
-/
def SendsWholeTLPs (s : PcieCtrl) (log : TransmitLog) : Prop :=
  ∃ (order : List (TlpSource × List SendTLP)) (burst : List SendTLP)
    (waiting : TlpSource → List SendTLP),
    log.sent ++ s.tx.sendTLPQ.items = order.flatMap Prod.snd ++ burst
    ∧ (∀ t ∈ order, WholeTLP t.2)
    ∧ UnderWay s.writes.dataWordsRemain burst
    ∧ (cutTLPs [] log.sent).IsPrefix (order.map Prod.snd)
    ∧ MergeN.Holds 8 s.tx.sendTLPm (byPort waiting)
    ∧ waiting .write = []
    ∧ ∀ source,
        ofSource source log.offered
          = (ofSource source order).flatten ++ waiting source ++ s.notMerged burst source

/-- Transmit multiplexing keeps TLPs whole, for every interleaving of the sources and every
order of rule firings from reset.
-/
theorem sends_whole_tlps {p : PowerUp} {state : PcieCtrl × TransmitLog}
    (run : Reach (traced PcieCtrl.step TransmitLog.record) anyEvent
      (mkPcieCtrl p, TransmitLog.start) state)
    : SendsWholeTLPs state.1 state.2 := by
  obtain ⟨order, burst, waiting, inv⟩ := multiplexed run
  refine ⟨order, burst, waiting, inv.beats, inv.whole, inv.underWay, ?_, inv.tree,
    inv.noWrites, inv.sources⟩
  have sent := cutTLPs_append [] state.2.sent state.1.tx.sendTLPQ.items
  have whole : ∀ t ∈ order.map Prod.snd, WholeTLP t := by
    intro t member
    obtain ⟨entry, inOrder, rfl⟩ := List.mem_map.mp member
    exact inv.whole entry inOrder
  rwa [inv.beats, List.flatMap_def, cutTLPs_flatten whole inv.underWay.unfinished] at sent

/-- A user completion enters the merge tree while a write burst of one word is generated. -/
def interleavedRun : List Event :=
  [.insertFreeTag, .relayFreeWriteTag, .dmaWriteReq 0 1, .dmaWriteData 7, .splitDmaWriteReq,
    .splitDmaWriteReq2, .relayBufIdxRead, .dataSend default 5, .relayUserSendTLP,
    .generateHeaderTLP, .sendTLPmRule (.inside true (.inside false .merge)), .relayTLP,
    .sendTLPmRule (.inside true (.ma1 false)), .generateDataTLP,
    .sendTLPmRule (.inside true .merge), .sendTLPmRule (.ma1 true), .sendTLPmRule .merge,
    .relayTLPm, .relayTLP, .relayTLP]

/-- In that run the write goes out whole and the completion behind it. -/
theorem sends_whole_tlps_interleavedRun
    : ∃ state : PcieCtrl × TransmitLog,
        Reach (traced PcieCtrl.step TransmitLog.record) anyEvent
          (mkPcieCtrl default, TransmitLog.start) state
        ∧ state.2.sent.map SendTLP.last = [0, 1, 1]
        ∧ SendsWholeTLPs state.1 state.2 := by
  obtain ⟨state, run, seen⟩ := exec_reach_map (traced PcieCtrl.step TransmitLog.record) anyEvent
    (mkPcieCtrl default, TransmitLog.start) interleavedRun
    (fun state => state.2.sent.map SendTLP.last) [0, 1, 1]
    (by
      simp only [mkPcieCtrl, mkMergeN_eight]
      decide +kernel)
  exact ⟨state, run, seen, sends_whole_tlps run⟩

end BluespecPcie

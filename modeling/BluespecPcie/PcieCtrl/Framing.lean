import BluespecPcie.PcieCtrl.BeatLog

/-! Framing of the beats in `tlpQ`: which beats the parser takes for headers. -/

namespace BluespecPcie

open Bluespec

-----------------------------------------------------------------------------------------
-- Well-formed TLPs towards the device
-----------------------------------------------------------------------------------------

/-- What a host sends: reads, 32-bit memory writes, completions with and without data. -/
inductive RxKind where
  | read | write | completion | noData
deriving DecidableEq

/-- The type field fits the kind, and the length field counts a payload; without payload
the length field is free.
-/
def WellFormedHeader (kind : RxKind) (cdw0 : BitVec 32) (payload : List (BitVec 32)) : Prop :=
  match kind with
  | .read => isRead (dwType cdw0) = true ∧ payload = []
  | .write =>
      dwType cdw0 = type_wr32_mem ∧ payload ≠ [] ∧ payload.length ≤ 1024
        ∧ dwLength cdw0 = BitVec.ofNat 10 payload.length
  | .completion =>
      dwType cdw0 = type_completion ∧ payload ≠ [] ∧ payload.length ≤ 1024
        ∧ dwLength cdw0 = BitVec.ofNat 10 payload.length
  | .noData => dwType cdw0 = type_completionn ∧ payload = []

instance (kind : RxKind) (cdw0 : BitVec 32) (payload : List (BitVec 32))
    : Decidable (WellFormedHeader kind cdw0 payload) :=
  match kind with
  | .read => inferInstanceAs (Decidable (_ ∧ _))
  | .write => inferInstanceAs (Decidable (_ ∧ _ ∧ _ ∧ _))
  | .completion => inferInstanceAs (Decidable (_ ∧ _ ∧ _ ∧ _))
  | .noData => inferInstanceAs (Decidable (_ ∧ _))

/-- A TLP with a header of three DWs. -/
structure RxTlp where
  kind : RxKind
  cdw0 : BitVec 32
  cdw1 : BitVec 32
  cdw2 : BitVec 32
  payload : List (BitVec 32)
  wellFormed : WellFormedHeader kind cdw0 payload

namespace RxTlp

/-- The DWs on the wire. -/
def dws (t : RxTlp) : Tlp := t.cdw0 :: t.cdw1 :: t.cdw2 :: t.payload

/-- Beats behind the first one. -/
def moreBeats (t : RxTlp) : Nat := (t.payload.length + 2) / 4

/-- The beats of a TLP are its first one and the others. -/
theorem beatCount_dws (t : RxTlp) : beatCount t.dws = t.moreBeats + 1 := by
  simp only [beatCount, dws, moreBeats, List.length_cons]
  omega

end RxTlp

-----------------------------------------------------------------------------------------
-- What framing requires
-----------------------------------------------------------------------------------------

/-- Where a beat lies: the index and kind of its TLP, and whether it is the first beat. -/
structure Place where
  tlp : Nat
  kind : RxKind
  first : Bool
deriving DecidableEq

/-- The places of the beats of packed TLPs, the first having index `i`. -/
def places (i : Nat) : List RxTlp → List Place
  | [] => []
  | t :: ts =>
      ⟨i, t.kind, true⟩ :: List.replicate t.moreBeats ⟨i, t.kind, false⟩ ++ places (i + 1) ts

/-- Every header is a first beat, and every payload beat belongs to the completion whose
header was decoded last, `current`.
-/
def framingKept (current : Option Nat) : List (Role × Place) → Prop
  | [] => True
  | (.header, place) :: rest => place.first = true ∧ framingKept (some place.tlp) rest
  | (.payload, place) :: rest =>
      place.first = false ∧ place.kind = .completion ∧ current = some place.tlp
        ∧ framingKept current rest

/-- The consumed beats of the packed TLPs `ts` were taken for what they are. -/
def KeepsFraming (ts : List RxTlp) (decoded : List (Role × BitVec 128)) : Prop :=
  framingKept none ((decoded.map Prod.fst).zip (places 0 ts))

/-- The TLPs the parser frames: no write has more than one DW, and only the last TLP may be
a completion without data whose length field is not 1.
-/
structure Parseable (ts : List RxTlp) : Prop where
  writes : ∀ t ∈ ts, t.kind = .write → t.payload.length = 1
  noData : ∀ t ∈ ts.dropLast, t.kind = .noData → dwLength t.cdw0 = 1#10

-----------------------------------------------------------------------------------------
-- The parser on one TLP
-----------------------------------------------------------------------------------------

/-- The first beat of a packed TLP starts with its first DW. -/
theorem RxTlp.dword_first {t : RxTlp} {beat : BitVec 128}
    (carries : (t.dws.take 4).IsPrefix (beatDWs beat))
    : dword beat 0 = t.cdw0 := by
  simp only [RxTlp.dws, beatDWs, List.take_succ_cons, List.cons_prefix_cons] at carries
  exact carries.1.symm

/-- The length register after the header beat of a TLP. -/
def RxTlp.armed (t : RxTlp) : BitVec 10 :=
  match t.kind with
  | .read | .write => 0#10
  | .completion | .noData => dwLength t.cdw0 - 1#10

/-- A header beat arms the register by its kind alone; witness: the type field decides. -/
theorem RxTlp.nextLength_first {t : RxTlp} {beat : BitVec 128}
    (carries : (t.dws.take 4).IsPrefix (beatDWs beat))
    : nextLength 0#10 beat = t.armed := by
  have first := t.dword_first carries
  have wellFormed := t.wellFormed
  simp only [nextLength, tlpType_eq, tlpLength_eq, first, RxTlp.armed, if_true]
  cases kind : t.kind with
  | read =>
      rw [kind] at wellFormed
      simp [wellFormed.1]
  | write =>
      rw [kind] at wellFormed
      rw [wellFormed.1]
      rfl
  | completion =>
      rw [kind] at wellFormed
      rw [wellFormed.1]
      rfl
  | noData =>
      rw [kind] at wellFormed
      rw [wellFormed.1]
      rfl

/-- As long as the register is armed, beats are payload whatever they contain; induction
on the beats.
-/
theorem parse_payload (length : BitVec 10) (beats : List (BitVec 128))
    (covers : beats.length = (length.toNat + 3) / 4)
    : parse length beats = (0#10, List.replicate beats.length .payload) := by
  induction beats generalizing length with
  | nil =>
      have zero : length = 0#10 := by
        apply BitVec.eq_of_toNat_eq
        simp only [List.length_nil] at covers
        rw [BitVec.toNat_ofNat]
        omega
      rw [zero]
      rfl
  | cons beat rest ih =>
      have nonzero : length ≠ 0#10 := by
        rintro rfl
        simp at covers
      have next : (nextLength length beat).toNat = length.toNat - 4 := by
        simp only [nextLength, if_neg nonzero]
        split
        next more =>
          rw [BitVec.toNat_sub_of_le more]
          rfl
        next less =>
          simp only [BitVec.le_def, BitVec.toNat_ofNat] at less ⊢
          omega
      have shorter : rest.length = ((nextLength length beat).toNat + 3) / 4 := by
        simp only [List.length_cons] at covers
        omega
      simp [parse, ih _ shorter, roleOf, nonzero, List.replicate_succ]

/-- The payload of a completion is exactly what its header announced. -/
theorem RxTlp.armed_completion {t : RxTlp} (completion : t.kind = .completion)
    : t.moreBeats = (t.armed.toNat + 3) / 4 := by
  have wellFormed := t.wellFormed
  rw [completion] at wellFormed
  obtain ⟨-, some, fits, length⟩ := wellFormed
  have positive := List.length_pos_iff.mpr some
  simp only [RxTlp.armed, completion, RxTlp.moreBeats, length]
  rw [BitVec.toNat_sub]
  simp only [BitVec.toNat_ofNat]
  omega

/-- The beats of a packed TLP: a first one that starts with its header, and the others. -/
theorem RxTlp.packs_cases {t : RxTlp} {beats : List (BitVec 128)} (packed : Packs t.dws beats)
    : ∃ beat more, beats = beat :: more ∧ nextLength 0#10 beat = t.armed
        ∧ more.length = t.moreBeats := by
  have count := packed.length
  rw [t.beatCount_dws] at count
  cases packed with
  | @cons _ more beat _ carries rest =>
      exact ⟨beat, more, rfl, t.nextLength_first carries, by simpa using count⟩

-----------------------------------------------------------------------------------------
-- The parser on packed TLPs
-----------------------------------------------------------------------------------------

/-- Framing of a sequence holds for what came first. -/
theorem framingKept_of_append {current : Option Nat} {first second : List (Role × Place)}
    (kept : framingKept current (first ++ second))
    : framingKept current first := by
  induction first generalizing current with
  | nil => trivial
  | cons consumed rest ih =>
      obtain ⟨role, place⟩ := consumed
      cases role with
      | header => exact ⟨kept.1, ih kept.2⟩
      | payload => exact ⟨kept.1, kept.2.1, kept.2.2.1, ih kept.2.2.2⟩

/-- Payload beats of the current completion keep the framing of what follows. -/
theorem framingKept_replicate {i n : Nat} {rest : List (Role × Place)}
    : framingKept (some i)
        (List.replicate n (Role.payload, ⟨i, .completion, false⟩) ++ rest)
      ↔ framingKept (some i) rest := by
  induction n with
  | zero => simp
  | succ n ih => simp [List.replicate_succ, framingKept, ih]

/-- Roles and places of the payload beats of a completion. -/
theorem zip_replicate_append {n : Nat} {role : Role} {place : Place} {roles : List Role}
    {others : List Place}
    : (List.replicate n role ++ roles).zip (List.replicate n place ++ others)
      = List.replicate n (role, place) ++ roles.zip others := by
  rw [List.zip_append (by simp), List.zip_replicate']

/-- An empty sequence is framed. -/
theorem Parseable.nil : Parseable [] := ⟨by simp, by simp⟩

/-- A sequence is framed by its first TLP and the others. -/
theorem Parseable.cons {t : RxTlp} {ts : List RxTlp}
    : Parseable (t :: ts)
      ↔ (t.kind = .write → t.payload.length = 1)
        ∧ (ts ≠ [] → t.kind = .noData → dwLength t.cdw0 = 1#10)
        ∧ Parseable ts := by
  cases ts with
  | nil =>
      constructor
      · intro parseable
        exact ⟨parseable.writes t List.mem_cons_self, by simp,
          .nil⟩
      · rintro ⟨write, -, -⟩
        exact ⟨by simpa using write, by simp⟩
  | cons t' ts =>
      constructor
      · intro parseable
        exact ⟨parseable.writes t List.mem_cons_self,
          fun _ => parseable.noData t (by simp),
          ⟨fun u member => parseable.writes u (List.mem_cons_of_mem _ member),
            fun u member => parseable.noData u (by simp [member])⟩⟩
      · rintro ⟨write, noData, rest⟩
        refine ⟨?_, ?_⟩
        · intro u member
          rcases List.mem_cons.mp member with rfl | member
          · exact write
          · exact rest.writes u member
        · intro u member
          rw [List.dropLast_cons_cons] at member
          rcases List.mem_cons.mp member with rfl | member
          · exact noData (by simp)
          · exact rest.noData u member

/-- The register is armed for the next TLP's beat only by a completion without data. -/
theorem sub_one_eq_zero_iff {length : BitVec 10} : length - 1#10 = 0#10 ↔ length = 1#10 := by
  rw [BitVec.sub_eq_iff_eq_add]
  rfl

/-- Whole packed TLPs, parsed from an idle register, keep the framing exactly if they are
parseable; induction on the TLPs, the kind of the first one deciding.
-/
theorem framingKept_parse_iff {ts : List RxTlp} {beats : List (BitVec 128)}
    (packed : PackedAll (ts.map RxTlp.dws) beats) (current : Option Nat) (i : Nat)
    : framingKept current ((parse 0#10 beats).2.zip (places i ts)) ↔ Parseable ts := by
  induction ts generalizing beats current i with
  | nil =>
      have none : framingKept current ((parse 0#10 beats).2.zip (places i [])) := by
        simp [places, framingKept]
      exact iff_of_true none .nil
  | cons t ts ih =>
      cases packed with
      | @cons _ _ beats rest first others =>
      obtain ⟨beat, more, rfl, armed, count⟩ := t.packs_cases first
      have head : framingKept current ((parse 0#10 (beat :: more ++ rest)).2.zip
            (places i (t :: ts)))
          ↔ framingKept (some i) ((parse t.armed (more ++ rest)).2.zip
            (List.replicate t.moreBeats ⟨i, t.kind, false⟩ ++ places (i + 1) ts)) := by
        simp [parse, armed, places, roleOf, framingKept]
      rw [head, Parseable.cons]
      have wellFormed := t.wellFormed
      cases kind : t.kind with
      | read =>
          rw [kind] at wellFormed
          have single : t.moreBeats = 0 := by simp [RxTlp.moreBeats, wellFormed.2]
          have idle : t.armed = 0#10 := by simp [RxTlp.armed, kind]
          obtain rfl := List.length_eq_zero_iff.mp (count.trans single)
          simp [single, idle, ih others]
      | write =>
          have idle : t.armed = 0#10 := by simp [RxTlp.armed, kind]
          by_cases one : t.payload.length = 1
          · have single : t.moreBeats = 0 := by simp [RxTlp.moreBeats, one]
            obtain rfl := List.length_eq_zero_iff.mp (count.trans single)
            simp [single, idle, one, ih others]
          · -- the second beat of the write is decoded as a header
            rw [kind] at wellFormed
            have positive := List.length_pos_iff.mpr wellFormed.2.1
            obtain ⟨n, extra⟩ : ∃ n, t.moreBeats = n + 1 :=
              ⟨t.moreBeats - 1, by simp only [RxTlp.moreBeats]; omega⟩
            obtain ⟨second, more, rfl⟩ := List.exists_cons_of_length_eq_add_one
              (count.trans extra)
            simp [extra, idle, one, parse, roleOf, List.replicate_succ, framingKept]
      | completion =>
          have covers := count.trans (t.armed_completion kind)
          rw [parse_append, parse_payload t.armed more covers, count, zip_replicate_append,
            framingKept_replicate, ih others]
          simp
      | noData =>
          rw [kind] at wellFormed
          have single : t.moreBeats = 0 := by simp [RxTlp.moreBeats, wellFormed.2]
          obtain rfl := List.length_eq_zero_iff.mp (count.trans single)
          by_cases closes : dwLength t.cdw0 = 1#10
          · have idle : t.armed = 0#10 := by
              simp only [RxTlp.armed, kind]
              exact sub_one_eq_zero_iff.mpr closes
            simp [single, idle, closes, ih others]
          · have busy : t.armed ≠ 0#10 := by
              simp only [RxTlp.armed, kind]
              exact sub_one_eq_zero_iff.not.mpr closes
            cases ts with
            | nil =>
                cases others
                simp [single, parse, framingKept, places, Parseable.nil]
            | cons t' ts =>
                cases others with
                | @cons _ _ beats rest second others =>
                -- the header of the next TLP is consumed as payload
                obtain ⟨beat', more', rfl, -, -⟩ := t'.packs_cases second
                simp [single, closes, busy, parse, roleOf, places, framingKept]

/-- Pairing more elements only adds pairs behind those of the first ones. -/
theorem zip_append_left {α β : Type} (first second : List α) (others : List β)
    : ∃ rest, (first ++ second).zip others = first.zip others ++ rest := by
  induction first generalizing others with
  | nil => exact ⟨_, rfl⟩
  | cons x first ih =>
      cases others with
      | nil => exact ⟨[], rfl⟩
      | cons y others =>
          obtain ⟨rest, split⟩ := ih others
          exact ⟨rest, by simp [split]⟩

-----------------------------------------------------------------------------------------
-- Runs
-----------------------------------------------------------------------------------------

/-- In every state of every run that presents the packed TLPs `ts` to `tlpQ`, the framing is
kept if they are parseable; once all their beats are consumed, only then.
-/
theorem keepsFraming_of_parseable {p : PowerUp} {s : PcieCtrl × BeatLog}
    (run : Reach beatStep anyEvent (mkPcieCtrl p, {}) s) {ts : List RxTlp}
    {beats : List (BitVec 128)} (packed : PackedAll (ts.map RxTlp.dws) beats)
    (presented : s.2.enqueued <+: beats)
    : (Parseable ts → KeepsFraming ts s.2.decoded)
      ∧ (s.2.decoded.length = beats.length → KeepsFraming ts s.2.decoded → Parseable ts) := by
  have agrees := beatStep_agrees run
  obtain ⟨later, rfl⟩ := presented
  have roles : s.2.decoded.map Prod.fst = (parse 0#10 (s.2.decoded.map Prod.snd)).2 := by
    rw [agrees.parsed]
  have whole := framingKept_parse_iff packed none 0
  rw [agrees.queued, List.append_assoc, parse_append] at whole
  constructor
  · intro parseable
    have kept := whole.mpr parseable
    obtain ⟨rest, split⟩ := zip_append_left (parse 0#10 (s.2.decoded.map Prod.snd)).2
      (parse (parse 0#10 (s.2.decoded.map Prod.snd)).1 (s.1.rx.tlpQ.items ++ later)).2
      (places 0 ts)
    rw [split, ← roles] at kept
    exact framingKept_of_append kept
  · intro all kept
    have none : s.1.rx.tlpQ.items ++ later = [] := by
      rw [agrees.queued] at all
      apply List.length_eq_zero_iff.mp
      simp only [List.length_append, List.length_map] at all ⊢
      omega
    rw [none] at whole
    simp only [parse, List.append_nil, ← roles] at whole
    exact whole.mp kept

/-- A read of the magic number at address 0. -/
def magicRead : RxTlp := ⟨.read, 1, 0, 0, [], by decide⟩

/-- A completion without data, with the length field zero. -/
def emptyCompletion : RxTlp := ⟨.noData, 0x0a000000, 0, 0, [], by decide⟩

/-- A write of two DWs. -/
def pairWrite : RxTlp := ⟨.write, 0x40000002, 0, 0, [1, 2], by decide⟩

/-- Packing of a TLP that fits in one beat. -/
theorem Packs.single {dws : List (BitVec 32)} {beat : BitVec 128} (some : dws ≠ [])
    (fits : dws.length ≤ 4) (carries : dws.IsPrefix (beatDWs beat))
    : Packs dws [beat] := by
  refine .cons some ?_ ?_
  · rw [List.take_of_length_le fits]
    exact carries
  · rw [List.drop_of_length_le fits]
    exact .nil

/-- A completion of six DWs: the first in its header beat, the others in two beats behind. -/
def wordsCompletion : RxTlp := ⟨.completion, 0x4a000006, 0, 0, [1, 2, 3, 4, 5, 6], by decide⟩

/-- A write of one DW. -/
def wordWrite : RxTlp := ⟨.write, 0x40000001, 0, 0, [7], by decide⟩

/-- Their beats, a read of the magic number between them. -/
def severalBeats : List (BitVec 128) :=
  [packDWs 1 0 0 0x4a000006, packDWs 5 4 3 2, packDWs 0 0 0 6, packDWs 0 0 0 1,
    packDWs 7 0 0 0x40000001]

/-- A run that receives a completion of three beats, a read and a write behind it keeps the
framing.
-/
theorem keepsFraming_severalTlps
    : ∃ s : PcieCtrl × BeatLog, Reach beatStep anyEvent (mkPcieCtrl default, {}) s
        ∧ s.2.decoded.map Prod.fst = [.header, .payload, .payload, .header, .header]
        ∧ KeepsFraming [wordsCompletion, magicRead, wordWrite] s.2.decoded := by
  obtain ⟨s, run, seen⟩ := exec_reach_map beatStep anyEvent (mkPcieCtrl default, {})
    ([.recvTLP ⟨packDWs 1 0 0 0x4a000006, 0xffff, 0x004000⟩, .filterStatReadTLP,
      .recvTLP ⟨packDWs 5 4 3 2, 0xffff, 0⟩, .procCompletionTLP,
      .recvTLP ⟨packDWs 0 0 0 6, 0x000f, 0x200000⟩, .procCompletionTLP,
      .recvTLP ⟨packDWs 0 0 0 1, 0x0fff, 0x204000⟩, .filterStatReadTLP,
      .recvTLP ⟨packDWs 7 0 0 0x40000001, 0xffff, 0x204000⟩, .filterStatReadTLP])
    (fun s => (s.2.enqueued, s.2.decoded.map Prod.fst))
    (severalBeats, [.header, .payload, .payload, .header, .header]) (by decide +kernel)
  simp only [Prod.mk.injEq] at seen
  have packed : PackedAll ([wordsCompletion, magicRead, wordWrite].map RxTlp.dws)
      ([packDWs 1 0 0 0x4a000006, packDWs 5 4 3 2, packDWs 0 0 0 6]
        ++ ([packDWs 0 0 0 1] ++ ([packDWs 7 0 0 0x40000001] ++ []))) := by
    refine .cons (.cons (by decide) (by decide) (.cons (by decide) (by decide) ?_)) ?_
    · exact .single (by decide) (by decide) (by decide)
    · exact .cons (.single (by decide) (by decide) (by decide))
        (.cons (.single (by decide) (by decide) (by decide)) .nil)
  refine ⟨s, run, seen.2, ?_⟩
  refine (keepsFraming_of_parseable run packed ?_).1 ⟨by decide, by decide⟩
  rw [seen.1]
  exact List.prefix_refl _

/-- A header behind a completion without data is consumed as payload, and the second beat of
a write is decoded as a header: neither sequence keeps the framing in every run.
-/
theorem framing_lost
    : (¬∀ (p : PowerUp) (s : PcieCtrl × BeatLog) (beats : List (BitVec 128)),
        Reach beatStep anyEvent (mkPcieCtrl p, {}) s →
        PackedAll ([emptyCompletion, magicRead].map RxTlp.dws) beats →
        s.2.enqueued <+: beats → KeepsFraming [emptyCompletion, magicRead] s.2.decoded)
      ∧ ¬∀ (p : PowerUp) (s : PcieCtrl × BeatLog) (beats : List (BitVec 128)),
        Reach beatStep anyEvent (mkPcieCtrl p, {}) s →
        PackedAll ([pairWrite].map RxTlp.dws) beats →
        s.2.enqueued <+: beats → KeepsFraming [pairWrite] s.2.decoded := by
  constructor
  · intro keeps
    obtain ⟨s, run, seen⟩ := exec_reach_map beatStep anyEvent (mkPcieCtrl default, {})
      [.recvTLP ⟨packDWs 0 0 0 0x0a000000, 0x0fff, 0x204000⟩,
        .recvTLP ⟨packDWs 0 0 0 1, 0x0fff, 0x204000⟩, .filterStatReadTLP, .procCompletionTLP]
      (fun s => (s.2.enqueued, s.2.decoded.map Prod.fst))
      ([packDWs 0 0 0 0x0a000000, packDWs 0 0 0 1], [.header, .payload]) (by decide +kernel)
    simp only [Prod.mk.injEq] at seen
    have kept := keeps default s ([packDWs 0 0 0 0x0a000000] ++ ([packDWs 0 0 0 1] ++ [])) run
      (.cons (.single (by decide) (by decide) (by decide))
        (.cons (.single (by decide) (by decide) (by decide)) .nil))
      (by rw [seen.1]; exact List.prefix_refl _)
    rw [KeepsFraming, seen.2] at kept
    exact absurd kept.2.1 (by decide)
  · intro keeps
    obtain ⟨s, run, seen⟩ := exec_reach_map beatStep anyEvent (mkPcieCtrl default, {})
      [.recvTLP ⟨packDWs 1 0 0 0x40000002, 0xffff, 0x004000⟩,
        .recvTLP ⟨packDWs 0 0 0 2, 0x000f, 0x200000⟩, .filterStatReadTLP, .filterStatReadTLP]
      (fun s => (s.2.enqueued, s.2.decoded.map Prod.fst))
      ([packDWs 1 0 0 0x40000002, packDWs 0 0 0 2], [.header, .header]) (by decide +kernel)
    simp only [Prod.mk.injEq] at seen
    have kept := keeps default s ([packDWs 1 0 0 0x40000002, packDWs 0 0 0 2] ++ []) run
      (.cons (.cons (by decide) (by decide) (.single (by decide) (by decide) (by decide))) .nil)
      (by rw [seen.1]; exact List.prefix_refl _)
    rw [KeepsFraming, seen.2] at kept
    exact absurd kept.2.1 (by decide)

end BluespecPcie

import BluespecPcie.PcieCtrl.BeatLog

/-! Straddled TLPs on the receive stream: which of their DWs reach `tlpQ`. -/

namespace BluespecPcie

open Bluespec

namespace Realign

-----------------------------------------------------------------------------------------
-- One beat
-----------------------------------------------------------------------------------------

/-- The registers pass beats through: the offset is not 8 and nothing is kept. -/
structure Aligned (r : Realign) : Prop where
  notShifted : r.shifted = false
  nothingKept : r.partBuffer = none

/-- The registers after reset pass beats through. -/
theorem aligned_reset : reset.Aligned := ⟨rfl, rfl⟩

variable {r : Realign} {b : RxBeat}

/-- A start at byte 0 passes its beat through, whatever was kept. -/
theorem next_right (right : b.sof_right = true)
    : (r.next b).1.Aligned ∧ (r.next b).2.map Prod.fst = some b.tlp := by
  simp only [next, right, if_true, Option.map_some, and_true]
  exact ⟨by simp [shifted], rfl⟩

/-- Without a start mark the aligned registers pass the beat through. -/
theorem next_aligned (aligned : r.Aligned) (absent : b.sof_present = false)
    : (r.next b).1 = r ∧ (r.next b).2.map Prod.fst = some b.tlp := by
  obtain ⟨right, mid⟩ := RxBeat.no_sof absent
  simp [next, right, mid, aligned.notShifted]

/-- Without a start mark the shifted registers stay shifted, and enqueue one beat. -/
theorem next_shifted (shifted : r.shifted = true) (absent : b.sof_present = false)
    : (r.next b).1.shifted = true
      ∧ (r.next b).2.map Prod.fst = some (joinParts b.tlp (r.partBuffer.getD 0)) := by
  obtain ⟨right, mid⟩ := RxBeat.no_sof absent
  simp only [next, right, mid, shifted]
  constructor
  · by_cases last : b.last = true <;> simpa [last, Realign.shifted] using shifted
  · simp

/-- A start at byte 8 shifts what follows, and enqueues the tail only onto a kept part:
the tail of an aligned TLP is gone.
-/
theorem next_mid (mid : b.sof_mid = true)
    : (r.next b).1.shifted = true
      ∧ (r.next b).2.map Prod.fst = r.partBuffer.map (joinParts b.tlp) := by
  simp only [next, RxBeat.sof_right_of_mid mid, mid]
  constructor
  · simp [Realign.shifted]
  · cases r.partBuffer <;> simp

end Realign

-----------------------------------------------------------------------------------------
-- Streams that never start a TLP at byte 8
-----------------------------------------------------------------------------------------

/-- Without starts at byte 8 every beat passes through, so what is enqueued packs the rest
of the TLP under way and then the others; induction on the framing.
-/
theorem Realign.packs_of_no_mid {r : Realign} {rest : List (BitVec 32)} {ts : List Tlp}
    {beats : List RxBeat} (framed : Framed rest ts beats) (aligned : r.Aligned)
    (noMid : ∀ b ∈ beats, b.sof_mid = false)
    : ∃ tail others, (r.run beats).2 = tail ++ others ∧ Packs rest tail
        ∧ PackedAll ts others := by
  induction framed generalizing r with
  | idle => exact ⟨[], [], rfl, .nil, .nil⟩
  | @start t ts beats b long sof carries eof next ih =>
      obtain ⟨aligned, passed⟩ := Realign.next_right (r := r) sof
      obtain ⟨tail, others, same, packs, packed⟩ :=
        ih aligned (fun b member => noMid b (List.mem_cons_of_mem _ member))
      refine ⟨[], (b.tlp :: tail) ++ others, ?_, .nil, ?_⟩
      · simp [Realign.run, passed, same]
      · refine .cons (.cons ?_ carries packs) packed
        rintro rfl
        simp at long
  | @middle rest ts beats b some sof carries eof next ih =>
      obtain ⟨kept, passed⟩ := Realign.next_aligned aligned sof
      obtain ⟨tail, others, same, packs, packed⟩ :=
        ih aligned (fun b member => noMid b (List.mem_cons_of_mem _ member))
      refine ⟨b.tlp :: tail, others, ?_, .cons some carries packs, packed⟩
      simp [Realign.run, kept, passed, same]
  | straddle some lower long sof ends starts eof next ih =>
      have noMid := noMid _ List.mem_cons_self
      rw [sof] at noMid
      cases noMid

-----------------------------------------------------------------------------------------
-- Counting beats
-----------------------------------------------------------------------------------------

/-- Beats that the rest of the TLP under way still takes; two of its DWs are already kept
when it is shifted.
-/
def Realign.pending (r : Realign) (rest : List (BitVec 32)) : Nat :=
  if rest = [] then 0
  else if r.shifted then (rest.length + 5) / 4 else (rest.length + 3) / 4

/-- Nothing is pending between TLPs. -/
@[simp] theorem Realign.pending_nil (r : Realign) : r.pending [] = 0 := rfl

/-- The aligned registers need a beat for every four DWs. -/
theorem Realign.pending_aligned {r : Realign} (aligned : r.shifted = false)
    (rest : List (BitVec 32))
    : r.pending rest = beatCount rest := by
  unfold pending beatCount
  split
  next none => simp [none]
  next some => simp [aligned]

/-- The shifted registers need a beat for every four DWs, the two kept ones included. -/
theorem Realign.pending_shifted {r : Realign} (shifted : r.shifted = true)
    {rest : List (BitVec 32)} (some : rest ≠ [])
    : r.pending rest = (rest.length + 5) / 4 := by
  simp [pending, some, shifted]

/-- A TLP takes one beat and those of what is left of it. -/
theorem beatCount_drop {dws : List (BitVec 32)} (some : dws ≠ [])
    : beatCount dws = beatCount (dws.drop 4) + 1 := by
  have positive := List.length_pos_iff.mpr some
  simp only [beatCount, List.length_drop]
  omega

/-- The registers never yield more beats than the TLPs take; induction on the framing. -/
theorem Realign.length_le {r : Realign} {rest : List (BitVec 32)} {ts : List Tlp}
    {beats : List RxBeat} (framed : Framed rest ts beats)
    (kept : r.shifted = false → r.partBuffer = none)
    : (r.run beats).2.length ≤ r.pending rest + totalBeats ts := by
  induction framed generalizing r with
  | idle => simp [Realign.run]
  | @start t ts beats b long sof carries eof next ih =>
      obtain ⟨aligned, passed⟩ := Realign.next_right (r := r) sof
      have bound := ih (fun _ => aligned.nothingKept)
      have first : beatCount t = beatCount (t.drop 4) + 1 :=
        beatCount_drop (by rintro rfl; simp at long)
      rw [Realign.pending_aligned aligned.notShifted] at bound
      simp only [Realign.run, passed, Realign.pending_nil, totalBeats, List.map_cons,
        List.sum_cons, Option.toList_some, List.length_append, List.length_singleton] at bound ⊢
      omega
  | @middle rest ts beats b some sof carries eof next ih =>
      cases offset : r.shifted with
      | false =>
          obtain ⟨same, passed⟩ := Realign.next_aligned ⟨offset, kept offset⟩ sof
          have bound := ih (r := r) kept
          have first := beatCount_drop some
          rw [Realign.pending_aligned offset] at bound ⊢
          simp only [Realign.run, same, passed, Option.toList_some, List.length_append,
            List.length_singleton] at bound ⊢
          omega
      | true =>
          obtain ⟨shifted, joined⟩ := Realign.next_shifted offset sof
          have bound := ih (fun aligned => absurd (shifted.symm.trans aligned) (by decide))
          have step : (r.next b).1.pending (rest.drop 4) + 1 ≤ r.pending rest := by
            rw [Realign.pending_shifted offset some]
            by_cases ends : rest.drop 4 = []
            · rw [ends, pending_nil]
              omega
            · rw [Realign.pending_shifted shifted ends, List.length_drop]
              have longer := List.drop_eq_nil_iff.not.mp ends
              omega
          simp only [Realign.run, joined, Option.toList_some, List.length_append,
            List.length_singleton]
          omega
  | @straddle rest t ts beats b some lower long sof ends starts eof next ih =>
      obtain ⟨shifted, joined⟩ := Realign.next_mid (r := r) sof
      have bound := ih (fun aligned => absurd (shifted.symm.trans aligned) (by decide))
      have later : t.drop 2 ≠ [] := by
        intro empty
        have short := List.drop_eq_nil_iff.mp empty
        omega
      have one : (r.partBuffer.map (joinParts b.tlp)).toList.length ≤ r.pending rest := by
        have positive := List.length_pos_iff.mpr some
        have atMost : (r.partBuffer.map (joinParts b.tlp)).toList.length ≤ 1 := by
          cases r.partBuffer <;> simp
        cases offset : r.shifted with
        | false =>
            rw [Realign.pending_aligned offset]
            simp only [beatCount]
            omega
        | true =>
            rw [Realign.pending_shifted offset some]
            omega
      rw [Realign.pending_shifted shifted later] at bound
      simp only [Realign.run, joined, totalBeats, List.map_cons, List.sum_cons,
        List.length_append, beatCount, List.length_drop] at bound ⊢
      omega

/-- A start at byte 8 behind an aligned TLP loses a beat for good; induction on the framing
up to the first such start.
-/
theorem Realign.length_lt {r : Realign} {rest : List (BitVec 32)} {ts : List Tlp}
    {beats : List RxBeat} (framed : Framed rest ts beats) (aligned : r.Aligned)
    (mid : ∃ b ∈ beats, b.sof_mid = true)
    : (r.run beats).2.length < beatCount rest + totalBeats ts := by
  induction framed generalizing r with
  | idle => simp at mid
  | @start t ts beats b long sof carries eof next ih =>
      obtain ⟨aligned, passed⟩ := Realign.next_right (r := r) sof
      have later : ∃ b ∈ beats, b.sof_mid = true := by
        simpa [RxBeat.sof_mid_of_right sof] using mid
      have bound := ih aligned later
      have first : beatCount t = beatCount (t.drop 4) + 1 :=
        beatCount_drop (by rintro rfl; simp at long)
      simp only [Realign.run, passed, totalBeats, List.map_cons, List.sum_cons,
        Option.toList_some, List.length_append, List.length_singleton] at bound ⊢
      omega
  | @middle rest ts beats b some sof carries eof next ih =>
      obtain ⟨same, passed⟩ := Realign.next_aligned aligned sof
      have later : ∃ b ∈ beats, b.sof_mid = true := by
        simpa [(RxBeat.no_sof sof).2] using mid
      have bound := ih aligned later
      have first := beatCount_drop some
      simp only [Realign.run, same, passed, Option.toList_some, List.length_append,
        List.length_singleton] at bound ⊢
      omega
  | @straddle rest t ts beats b some lower long sof ends starts eof next ih =>
      obtain ⟨shifted, joined⟩ := Realign.next_mid (r := r) sof
      have bound := Realign.length_le next
        (fun aligned => absurd (shifted.symm.trans aligned) (by decide))
      have later : t.drop 2 ≠ [] := by
        intro empty
        have short := List.drop_eq_nil_iff.mp empty
        omega
      have positive := List.length_pos_iff.mpr some
      rw [Realign.pending_shifted shifted later] at bound
      simp only [Realign.run, joined, aligned.nothingKept, totalBeats, List.map_cons,
        List.sum_cons, List.length_append, beatCount, List.length_drop, Option.map_none,
        Option.toList_none, List.length_nil] at bound ⊢
      omega

-----------------------------------------------------------------------------------------
-- Runs
-----------------------------------------------------------------------------------------

/-- When the beats received in a run are whole framed TLPs, what was enqueued is their
packing exactly if no TLP started at byte 8.
-/
theorem enqueued_packed_iff {p : PowerUp} {s : PcieCtrl × BeatLog}
    (run : Reach beatStep anyEvent (mkPcieCtrl p, {}) s) {ts : List Tlp}
    (framed : Framed [] ts s.2.received)
    : PackedAll ts s.2.enqueued ↔ ∀ b ∈ s.2.received, b.sof_mid = false := by
  have enqueued : s.2.enqueued = (Realign.reset.run s.2.received).2 := by
    rw [(beatStep_agrees run).realigned]
  rw [enqueued]
  constructor
  · intro packed
    by_contra someMid
    have mid : ∃ b ∈ s.2.received, b.sof_mid = true := by simpa using someMid
    have fewer := Realign.length_lt framed Realign.aligned_reset mid
    rw [packed.length] at fewer
    simp [beatCount] at fewer
  · intro noMid
    obtain ⟨tail, others, same, packs, packed⟩ :=
      Realign.packs_of_no_mid framed Realign.aligned_reset noMid
    rw [same, List.length_eq_zero_iff.mp packs.length]
    exact packed

/-- `ruser` of a beat: whether a TLP starts, at which byte, and whether one ends. -/
def sideBand (sof : Bool) (byte : BitVec 4) (eof : Bool) : BitVec 22 :=
  BitVec.ofBool eof ++ 0#6 ++ BitVec.ofBool sof ++ byte ++ 0#10

/-- The beats of a five-DW TLP and a three-DW TLP that starts at `byte` behind it. -/
def twoTlps : List Tlp := [[1, 2, 3, 4, 5], [6, 7, 8]]

/-- `twoTlps` without a straddle. -/
def alignedBeats : List RxBeat :=
  [⟨packDWs 4 3 2 1, 0xffff, sideBand true 0 false⟩,
    ⟨packDWs 0 0 0 5, 0x000f, sideBand false 0 true⟩,
    ⟨packDWs 0 8 7 6, 0x0fff, sideBand true 0 true⟩]

/-- `twoTlps` with the second starting at byte 8 of the first's last beat. -/
def straddledBeats : List RxBeat :=
  [⟨packDWs 4 3 2 1, 0xffff, sideBand true 0 false⟩,
    ⟨packDWs 7 6 0 5, 0xff0f, sideBand true 8 true⟩,
    ⟨packDWs 0 0 0 8, 0x000f, sideBand false 0 true⟩]

/-- The aligned beats frame both TLPs. -/
theorem framed_alignedBeats : Framed [] twoTlps alignedBeats :=
  .start (by decide) (by decide) (by decide) (by decide)
    (.middle (by decide) (by decide) (by decide) (by decide)
      (.start (by decide) (by decide) (by decide) (by decide) .idle))

/-- The straddled beats frame both TLPs. -/
theorem framed_straddledBeats : Framed [] twoTlps straddledBeats :=
  .start (by decide) (by decide) (by decide) (by decide)
    (.straddle (by decide) (by decide) (by decide) (by decide) (by decide) (by decide)
      (by decide) (.middle (by decide) (by decide) (by decide) (by decide) .idle))

/-- A run that receives both TLPs aligned enqueues their packing. -/
theorem enqueued_packed_alignedBeats
    : ∃ s : PcieCtrl × BeatLog, Reach beatStep anyEvent (mkPcieCtrl default, {}) s
        ∧ s.2.received = alignedBeats ∧ PackedAll twoTlps s.2.enqueued := by
  obtain ⟨s, run, received⟩ := exec_reach_map beatStep anyEvent
    (mkPcieCtrl default, {}) (alignedBeats.map .recvTLP)
    (fun s => s.2.received) alignedBeats (by decide)
  refine ⟨s, run, received, ?_⟩
  have framed : Framed [] twoTlps s.2.received := by
    rw [received]
    exact framed_alignedBeats
  refine (enqueued_packed_iff run framed).mpr ?_
  rw [received]
  decide

/-- A start at byte 8 behind an aligned TLP loses that TLP's last DW, so the packing fails
on a stream the core may deliver.
-/
theorem straddle_loses_tail
    : ¬∀ (p : PowerUp) (s : PcieCtrl × BeatLog) (ts : List Tlp),
        Reach beatStep anyEvent (mkPcieCtrl p, {}) s → Framed [] ts s.2.received →
        PackedAll ts s.2.enqueued := by
  intro lossless
  obtain ⟨s, run, received⟩ := exec_reach_map beatStep anyEvent
    (mkPcieCtrl default, {}) (straddledBeats.map .recvTLP)
    (fun s => (s.2.received, s.2.enqueued.length)) (straddledBeats, 2) (by decide)
  simp only [Prod.mk.injEq] at received
  have packed := lossless default s twoTlps run (by rw [received.1]; exact framed_straddledBeats)
  have count := packed.length
  rw [received.2] at count
  cases count

end BluespecPcie

import BluespecPcie.PcieCtrl.ReceiveRules

/-! TLPs as DW sequences, and the ways they lie on 128-bit beats. -/

namespace BluespecPcie

open Bluespec

/-- A TLP as its DWs, header first. -/
abbrev Tlp := List (BitVec 32)

/-- The four DWs of a beat, DW 0 first. -/
def beatDWs (tlp : BitVec 128) : List (BitVec 32) :=
  [dword tlp 0, dword tlp 1, dword tlp 2, dword tlp 3]

@[simp] theorem length_beatDWs (tlp : BitVec 128) : (beatDWs tlp).length = 4 := rfl

-----------------------------------------------------------------------------------------
-- DWs of assembled beats
-----------------------------------------------------------------------------------------

/-- Each DW of a beat built by `packDWs` is the one put there. -/
theorem beatDWs_packDWs (cdw3 cdw2 cdw1 cdw0 : BitVec 32)
    : beatDWs (packDWs cdw3 cdw2 cdw1 cdw0) = [cdw0, cdw1, cdw2, cdw3] := by
  simp only [beatDWs, List.cons.injEq, and_true]
  refine ⟨?_, ?_, ?_, ?_⟩ <;>
  · apply BitVec.eq_of_getLsbD_eq
    intro i hi
    simp [dword, packDWs]
    grind

/-- Type field of a header DW. -/
def dwType (cdw0 : BitVec 32) : BitVec 7 := cdw0.extractLsb 30 24

/-- Length field of a header DW. -/
def dwLength (cdw0 : BitVec 32) : BitVec 10 := cdw0.extractLsb 9 0

/-- The type field of a beat is that of its first DW. -/
theorem tlpType_eq (beat : BitVec 128) : tlpType beat = dwType (dword beat 0) := by
  apply BitVec.eq_of_getLsbD_eq
  intro i hi
  simp [tlpType, dwType, dword]
  grind

/-- The length field of a beat is that of its first DW. -/
theorem tlpLength_eq (beat : BitVec 128) : tlpLength beat = dwLength (dword beat 0) := by
  apply BitVec.eq_of_getLsbD_eq
  intro i hi
  simp [tlpLength, dwLength, dword]
  grind

/-- The address of a request beat is that of its third DW. -/
theorem requestAddr_eq (beat : BitVec 128)
    : requestAddr beat = (dword beat 2).extractLsb 31 2 ++ 0#2 := by
  apply BitVec.eq_of_getLsbD_eq
  intro i hi
  simp [requestAddr, dword]
  grind

/-- DWs of a beat built by `packDWs`, one by one. -/
theorem dword_packDWs (cdw3 cdw2 cdw1 cdw0 : BitVec 32)
    : dword (packDWs cdw3 cdw2 cdw1 cdw0) 0 = cdw0
      ∧ dword (packDWs cdw3 cdw2 cdw1 cdw0) 1 = cdw1
      ∧ dword (packDWs cdw3 cdw2 cdw1 cdw0) 2 = cdw2
      ∧ dword (packDWs cdw3 cdw2 cdw1 cdw0) 3 = cdw3 := by
  have all := beatDWs_packDWs cdw3 cdw2 cdw1 cdw0
  simp only [beatDWs, List.cons.injEq, and_true] at all
  exact all

-----------------------------------------------------------------------------------------
-- Aligned packing: a TLP from byte 0 in groups of four DWs
-----------------------------------------------------------------------------------------

/-- `beats` carry `dws` from byte 0, four to a beat; unused DWs of the last are arbitrary. -/
inductive Packs : List (BitVec 32) → List (BitVec 128) → Prop
  | nil : Packs [] []
  | cons {dws beats} {beat : BitVec 128} (some : dws ≠ [])
    (carries : (dws.take 4).IsPrefix (beatDWs beat)) (rest : Packs (dws.drop 4) beats)
    : Packs dws (beat :: beats)

/-- `beats` are the packed TLPs, one after the other. -/
inductive PackedAll : List Tlp → List (BitVec 128) → Prop
  | nil : PackedAll [] []
  | cons {t ts beats rest} (packed : Packs t beats) (others : PackedAll ts rest)
    : PackedAll (t :: ts) (beats ++ rest)

/-- Beats a sequence of DWs takes. -/
def beatCount (dws : List (BitVec 32)) : Nat := (dws.length + 3) / 4

/-- Packing takes one beat for every four DWs, rounded up. -/
theorem Packs.length {dws : List (BitVec 32)} {beats : List (BitVec 128)}
    (packed : Packs dws beats)
    : beats.length = beatCount dws := by
  induction packed with
  | nil => rfl
  | @cons dws beats beat some carries rest ih =>
      have positive : 0 < dws.length := List.length_pos_iff.mpr some
      simp only [List.length_cons, ih, beatCount, List.length_drop]
      omega

/-- Beats a sequence of TLPs takes. -/
def totalBeats (ts : List Tlp) : Nat := (ts.map beatCount).sum

/-- Packed TLPs take the beats of each, by induction on the TLPs. -/
theorem PackedAll.length {ts : List Tlp} {beats : List (BitVec 128)}
    (packed : PackedAll ts beats)
    : beats.length = totalBeats ts := by
  induction packed with
  | nil => rfl
  | cons first _ ih =>
      rw [List.length_append, first.length, ih]
      rfl

-----------------------------------------------------------------------------------------
-- The straddled receive stream
-----------------------------------------------------------------------------------------

/-- `Framed rest ts beats`: on the receive stream, `beats` carry what is left of the TLP
under way (`rest`, empty between TLPs) and then the TLPs `ts`. A TLP starts at byte 0, or
at byte 8 of the beat in whose lower half the previous TLP ends; `ruser` marks the start
and whether a TLP ends in the beat.
-/
inductive Framed : List (BitVec 32) → List Tlp → List RxBeat → Prop
  | idle : Framed [] [] []
  | start {t : Tlp} {ts beats} {b : RxBeat} (long : 3 ≤ t.length)
    (sof : b.sof_right = true)
    (carries : (t.take 4).IsPrefix (beatDWs b.tlp)) (eof : b.last = decide (t.length ≤ 4))
    (next : Framed (t.drop 4) ts beats)
    : Framed [] (t :: ts) (b :: beats)
  | middle {rest : List (BitVec 32)} {ts beats} {b : RxBeat} (some : rest ≠ [])
    (sof : b.sof_present = false)
    (carries : (rest.take 4).IsPrefix (beatDWs b.tlp))
    (eof : b.last = decide (rest.length ≤ 4))
    (next : Framed (rest.drop 4) ts beats)
    : Framed rest ts (b :: beats)
  | straddle {rest : List (BitVec 32)} {t : Tlp} {ts beats} {b : RxBeat} (some : rest ≠ [])
    (lower : rest.length ≤ 2) (long : 3 ≤ t.length) (sof : b.sof_mid = true)
    (ends : rest.IsPrefix (beatDWs b.tlp))
    (starts : (beatDWs b.tlp).drop 2 = t.take 2) (eof : b.last = true)
    (next : Framed (t.drop 2) ts beats)
    : Framed rest (t :: ts) (b :: beats)

/-- A start at byte 0 is not one at byte 8. -/
theorem RxBeat.sof_mid_of_right {b : RxBeat} (right : b.sof_right = true)
    : b.sof_mid = false := by
  simp only [sof_right, Bool.and_eq_true, beq_iff_eq] at right
  simp [sof_mid, right.1]

/-- A start at byte 8 is not one at byte 0. -/
theorem RxBeat.sof_right_of_mid {b : RxBeat} (mid : b.sof_mid = true)
    : b.sof_right = false := by
  simp only [sof_mid, Bool.and_eq_true, beq_iff_eq] at mid
  simp [sof_right, mid.1]

/-- Without a start mark there is no start. -/
theorem RxBeat.no_sof {b : RxBeat} (absent : b.sof_present = false)
    : b.sof_right = false ∧ b.sof_mid = false := by
  simp [sof_right, sof_mid, absent]

end BluespecPcie

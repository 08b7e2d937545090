import BluespecPcie.PcieCtrl.DoneBits

/-! No read tag is lost or shared, and the two maps tell which tags can retire. -/

namespace BluespecPcie

open Bluespec

/-- What is kept of the read tags. -/
structure TagsKept (s : PcieCtrl) (log : TagLog) : Prop where
  flow : TagFlow s log
  counts : BurstCounts s log
  bits : DoneBits s log

section

variable {s s' : PcieCtrl} {log : TagLog}

theorem tagsKept_reset (p : PowerUp) : TagsKept (mkPcieCtrl p) {} :=
  ⟨tagFlow_reset p, burstCounts_reset p, doneBits_reset p⟩

/-- Every event keeps the tags, with a host that answers what is requested. -/
theorem TagsKept.step {e : Event} (kept : TagsKept s log) (answers : HostAnswers (s, log) e)
    (fires : s.step e = some s')
    : TagsKept s' (log.record s e) := by
  obtain ⟨flow, counts, bits⟩ := kept
  exact ⟨flow.step (bits.named_retired flow) fires,
    counts.step (bits.received_free flow) answers fires, bits.step counts flow fires⟩

/-- In every run the tags are kept; induction on the run. -/
theorem tagsKept_of_reach {p : PowerUp} {state : PcieCtrl × TagLog}
    (run : Reach (traced PcieCtrl.step TagLog.record) HostAnswers (mkPcieCtrl p, {}) state)
    : TagsKept state.1 state.2 := by
  refine run.invariant (P := fun state => TagsKept state.1 state.2) (tagsKept_reset p) ?_
  intro state e state' kept answers fires
  obtain ⟨fired, recorded⟩ := traced_eq_some.mp fires
  rw [recorded]
  exact kept.step answers fired

/-- With all tags inserted they are where they should be. -/
theorem TagsKept.conserved (kept : TagsKept s log) (inserted : s.tags.freeTagCnt = 128)
    : TagsConserved s log := by
  obtain ⟨flow, -, bits⟩ := kept
  have unretired : log.unretired = s.unretiredTags := by
    rw [TagLog.unretired, flow.made, List.drop_left]
  have outstanding : log.outstanding = s.retiredTags ++ s.unretiredTags := by
    rw [TagLog.outstanding, flow.made, flow.retired, List.append_assoc, List.drop_left]
  refine ⟨⟨⟨_, flow.retired.symm⟩, ⟨_, flow.made.symm⟩⟩, ?_, ?_⟩
  · have pool := flow.pool
    rw [inserted] at pool
    rw [outstanding]
    exact pool
  · intro tag within
    rw [unretired]
    exact bits.differ_iff flow within

end

/-- In every state reached in which the 128 tags are inserted, with a host that returns what is
requested, each tag is free or held by one burst, and its bit in the two maps tells that its data
is received and shifted and its burst has not retired.
-/
theorem tags_conserved {p : PowerUp} {state : PcieCtrl × TagLog}
    (run : Reach (traced PcieCtrl.step TagLog.record) HostAnswers (mkPcieCtrl p, {}) state)
    (inserted : state.1.tags.freeTagCnt = 128)
    : TagsConserved state.1 state.2 :=
  (tagsKept_of_reach run).conserved inserted

/-- A run in which the data of tag 0 is received and shifted, and its burst has not retired. -/
theorem tags_conserved_received
    : ∃ state : PcieCtrl × TagLog,
        (state.1.order.doneTagMap ^^^ state.1.order.orderTagMap, state.2.outstanding) = (1, [0])
        ∧ TagsConserved state.1 state.2 := by
  obtain ⟨state, run, seen⟩ := exec_reach_map (traced PcieCtrl.step TagLog.record) HostAnswers
    ({ mkPcieCtrl default with tags := poolAfter 128 (Nat.le_refl 128) }, {})
    (askTwoWords 0 ++ receiveTwoWords 0 13)
    (fun state => (state.1.tags.freeTagCnt,
      (state.1.order.doneTagMap ^^^ state.1.order.orderTagMap, state.2.outstanding)))
    (128, (1, [0])) (by decide +kernel)
  obtain ⟨inserted, bits⟩ := Prod.mk.inj seen
  exact ⟨state, bits, tags_conserved
    ((reach_poolAfter (fun _ => trivial) (fun _ => rfl) default 128 (Nat.le_refl 128)).trans run)
    inserted⟩

end BluespecPcie

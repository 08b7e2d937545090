import BluespecPcie.Dma.Tagged

/-! Counts that the host writes to a user word: a module sees them late, but in their order. -/

namespace BluespecPcie

/-- The counts among writes of the host. -/
def countWrites (word : BitVec 8) (writes : List IOWrite) : List (BitVec 32) :=
  writes.filterMap (fun d => if d.toffset = word then some d.data else none)

/-- The module has seen the count `seen`, and the counts in flight grow up to `limit`. -/
structure HostCounts (word : BitVec 8) (count : BitVec 32) (writes : List IOWrite)
    (limit seen : Nat) (acks : List Nat) : Prop where
  last : count = BitVec.ofNat 32 seen
  flight : countWrites word writes = acks.map (BitVec.ofNat 32)
  sorted : (seen :: acks).Pairwise (· ≤ ·)
  bounded : ∀ ack ∈ seen :: acks, ack ≤ limit

namespace HostCounts

variable {word : BitVec 8} {count : BitVec 32} {writes : List IOWrite} {limit seen : Nat}
  {acks : List Nat}

/-- No count is written yet. -/
theorem init (word : BitVec 8) : HostCounts word 0 [] 0 0 [] := by
  refine ⟨rfl, rfl, List.pairwise_singleton _ _, ?_⟩
  intro ack member
  rw [List.mem_singleton.mp member]

/-- What the module has seen is no more than what the host has counted. -/
theorem seen_le (counts : HostCounts word count writes limit seen acks) : seen ≤ limit :=
  counts.bounded seen List.mem_cons_self

/-- The host counts on. -/
theorem later (counts : HostCounts word count writes limit seen acks) {limit' : Nat}
    (more : limit ≤ limit')
    : HostCounts word count writes limit' seen acks :=
  { counts with bounded := fun ack member => Nat.le_trans (counts.bounded ack member) more }

/-- The oldest write is processed; a count that is seen is no lower than the one before. -/
theorem process {d : IOWrite} (counts : HostCounts word count (d :: writes) limit seen acks)
    : ∃ seen' acks',
        HostCounts word (if d.toffset = word then d.data else count) writes limit seen' acks'
        ∧ seen ≤ seen' := by
  obtain ⟨last, flight, sorted, bounded⟩ := counts
  rw [countWrites, List.filterMap_cons] at flight
  by_cases mine : d.toffset = word
  · rw [if_pos mine] at flight ⊢
    cases acks with
    | nil => cases flight
    | cons ack acks =>
        obtain ⟨first, rest⟩ := List.cons.inj flight
        have order := List.pairwise_cons.mp sorted
        exact ⟨ack, acks, ⟨first, rest, order.2,
          fun other member => bounded other (List.mem_cons_of_mem _ member)⟩,
          order.1 ack List.mem_cons_self⟩
  · rw [if_neg mine] at flight ⊢
    exact ⟨seen, acks, ⟨last, flight, sorted, bounded⟩, Nat.le_refl _⟩

/-- The host writes its count. -/
theorem send (counts : HostCounts word count writes limit seen acks) {d : IOWrite}
    (mine : d.toffset = word) (data : d.data = BitVec.ofNat 32 limit)
    : HostCounts word count (writes ++ [d]) limit seen (acks ++ [limit]) := by
  obtain ⟨last, flight, sorted, bounded⟩ := counts
  refine ⟨last, ?_, ?_, ?_⟩
  · rw [List.map_append, ← flight, countWrites, countWrites, List.filterMap_append,
      List.filterMap_cons, if_pos mine, data]
    rfl
  · rw [← List.cons_append, List.pairwise_append]
    refine ⟨sorted, List.pairwise_singleton _ _, ?_⟩
    intro ack member other last
    rw [List.mem_singleton.mp last]
    exact bounded ack member
  · intro ack member
    rw [← List.cons_append] at member
    rcases List.mem_append.mp member with old | new
    · exact bounded ack old
    · rw [List.mem_singleton.mp new]

/-- A write of another word leaves the counts. -/
theorem other (counts : HostCounts word count writes limit seen acks) {d : IOWrite}
    (another : d.toffset ≠ word)
    : HostCounts word count (writes ++ [d]) limit seen acks := by
  refine { counts with flight := ?_ }
  rw [← counts.flight, countWrites, countWrites, List.filterMap_append, List.filterMap_cons,
    if_neg another, List.filterMap_nil, List.append_nil]

end HostCounts

/-- The difference of two counts that are less than `2 ^ 32` apart. -/
theorem count_between {high low : Nat} (order : low ≤ high) (near : high - low < 2 ^ 32)
    : (BitVec.ofNat 32 high - BitVec.ofNat 32 low).toNat = high - low := by
  have split : BitVec.ofNat 32 high = BitVec.ofNat 32 (high - low) + BitVec.ofNat 32 low := by
    rw [← BitVec.ofNat_add, Nat.sub_add_cancel order]
  rw [split, BitVec.add_sub_cancel, BitVec.toNat_ofNat, Nat.mod_eq_of_lt near]

end BluespecPcie

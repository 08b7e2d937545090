import BluespecPcie.MergeN
import BluespecPcie.Bluespec.Streams

/-! The burst merges of MergeN.bsv: announced bursts and their words in separate queues. -/

namespace BluespecPcie

open Bluespec

-----------------------------------------------------------------------------------------
-- Two ports
-----------------------------------------------------------------------------------------

/-- The two-port module; a request is tagged with the port it came from. -/
structure BurstPair (α β : Type) (bSz : Nat) where
  reqM : Merge2 (Bool × β)
  inQ : Bool → Fifo α 2
  burstLeft : BitVec bSz
  burstSource : Bool
  outQ : Fifo α 2
  burstQ : Fifo β 2

namespace BurstPair

variable {α β : Type} {bSz : Nat}

def init : BurstPair α β bSz where
  reqM := .init
  inQ := fun _ => .empty
  burstLeft := 0
  burstSource := false
  outQ := .empty
  burstQ := .empty

/-- Rule `relay`: a burst is started with its first word, or goes on. -/
def relay (size : β → BitVec bSz) (m : BurstPair α β bSz) : Option (BurstPair α β bSz) :=
  if m.burstLeft = 0 then do
    let ((inidx, r), reqM) ← m.reqM.deq
    let (d, inQ) ← (m.inQ inidx).deq
    let outQ ← m.outQ.enq d
    let burstQ ← m.burstQ.enq r
    return {
      reqM
      inQ := Function.update m.inQ inidx inQ
      burstLeft := size r - 1
      burstSource := inidx
      outQ
      burstQ }
  else do
    let (d, inQ) ← (m.inQ m.burstSource).deq
    let outQ ← m.outQ.enq d
    return { m with
      inQ := Function.update m.inQ m.burstSource inQ
      burstLeft := m.burstLeft - 1
      outQ }

/-- Method `enq[i].enq`. -/
def enq (m : BurstPair α β bSz) (i : Bool) (d : α) : Option (BurstPair α β bSz) := do
  let inQ ← (m.inQ i).enq d
  return { m with inQ := Function.update m.inQ i inQ }

/-- Method `enq[i].burst`. -/
def burst (m : BurstPair α β bSz) (i : Bool) (b : β) : Option (BurstPair α β bSz) := do
  let reqM ← m.reqM.enq i.toNat (i, b)
  return { m with reqM }

/-- Rule `merge` of the queue of requests. -/
def merge (m : BurstPair α β bSz) : Option (BurstPair α β bSz) := do
  let reqM ← m.reqM.merge
  return { m with reqM }

/-- Method `getBurst`. -/
def getBurst (m : BurstPair α β bSz) : Option (β × BurstPair α β bSz) := do
  let (b, burstQ) ← m.burstQ.deq
  return (b, { m with burstQ })

/-- `first` and `deq`. -/
def deq (m : BurstPair α β bSz) : Option (α × BurstPair α β bSz) := do
  let (d, outQ) ← m.outQ.deq
  return (d, { m with outQ })

end BurstPair

-----------------------------------------------------------------------------------------
-- The tree
-----------------------------------------------------------------------------------------

/-- An elaborated module: two ports, or two subtrees before a two-port module whose bursts and
words are relayed to queues of their own.
-/
inductive BurstMerge (α β : Type) (bSz : Nat) where
  | pair (m : BurstPair α β bSz)
  | node (ma : Bool → BurstMerge α β bSz) (m0 : BurstPair α β bSz) (outQ : Fifo α 2)
    (burstQ : Fifo β 2)

/-- The module for `n` ports after reset; the test for two ports is always true. -/
def mkBurst {α β : Type} {bSz : Nat} (n : Nat) : BurstMerge α β bSz :=
  if 2 < n then .node (fun _ => mkBurst (halfUp n)) .init .empty .empty
  else .pair .init
termination_by n
decreasing_by (unfold halfUp; omega)

/-- A rule inside the tree: those of a two-port module, the relays of a node, or a rule of a
subtree.
-/
inductive BurstRule where
  | relay
  | merge
  | relayBurst
  | relayData
  | relayData_s (right : Bool)
  | relayBurst_s (right : Bool)
  | inside (right : Bool) (rule : BurstRule)

namespace BurstMerge

variable {α β : Type} {bSz : Nat}

/-- Method `enq[i].enq` of a tree for `n` ports. -/
def enq : Nat → BurstMerge α β bSz → Nat → α → Option (BurstMerge α β bSz)
  | _, pair m, i, d => do
      let m ← if i = 0 then m.enq false d else if i = 1 then m.enq true d else none
      return pair m
  | n, node ma m0 outQ burstQ, i, d =>
      if i < n / 2 then do
        let ma0 ← enq (halfUp n) (ma false) (i % (n / 2)) d
        return node (Function.update ma false ma0) m0 outQ burstQ
      else do
        let ma1 ← enq (halfUp n) (ma true) (i - n / 2) d
        return node (Function.update ma true ma1) m0 outQ burstQ

/-- Method `enq[i].burst` of a tree for `n` ports. -/
def burst : Nat → BurstMerge α β bSz → Nat → β → Option (BurstMerge α β bSz)
  | _, pair m, i, b => do
      let m ← if i = 0 then m.burst false b else if i = 1 then m.burst true b else none
      return pair m
  | n, node ma m0 outQ burstQ, i, b =>
      if i < n / 2 then do
        let ma0 ← burst (halfUp n) (ma false) (i % (n / 2)) b
        return node (Function.update ma false ma0) m0 outQ burstQ
      else do
        let ma1 ← burst (halfUp n) (ma true) (i - n / 2) b
        return node (Function.update ma true ma1) m0 outQ burstQ

/-- Method `getBurst`. -/
def getBurst : BurstMerge α β bSz → Option (β × BurstMerge α β bSz)
  | pair m => do
      let (b, m) ← m.getBurst
      return (b, pair m)
  | node ma m0 outQ burstQ => do
      let (b, burstQ) ← burstQ.deq
      return (b, node ma m0 outQ burstQ)

/-- `first` and `deq`. -/
def deq : BurstMerge α β bSz → Option (α × BurstMerge α β bSz)
  | pair m => do
      let (d, m) ← m.deq
      return (d, pair m)
  | node ma m0 outQ burstQ => do
      let (d, outQ) ← outQ.deq
      return (d, node ma m0 outQ burstQ)

/-- One firing of a rule of the tree. -/
def fire (size : β → BitVec bSz)
    : BurstMerge α β bSz → BurstRule → Option (BurstMerge α β bSz)
  | pair m, .relay => do
      let m ← m.relay size
      return pair m
  | pair m, .merge => do
      let m ← m.merge
      return pair m
  | node ma m0 outQ burstQ, .relay => do
      let m0 ← m0.relay size
      return node ma m0 outQ burstQ
  | node ma m0 outQ burstQ, .merge => do
      let m0 ← m0.merge
      return node ma m0 outQ burstQ
  | node ma m0 outQ burstQ, .relayBurst => do
      let (b, m0) ← m0.getBurst
      let burstQ ← burstQ.enq b
      return node ma m0 outQ burstQ
  | node ma m0 outQ burstQ, .relayData => do
      let (d, m0) ← m0.deq
      let outQ ← outQ.enq d
      return node ma m0 outQ burstQ
  | node ma m0 outQ burstQ, .relayData_s i => do
      let (d, mi) ← (ma i).deq
      let m0 ← m0.enq i d
      return node (Function.update ma i mi) m0 outQ burstQ
  | node ma m0 outQ burstQ, .relayBurst_s i => do
      let (b, mi) ← (ma i).getBurst
      let m0 ← m0.burst i b
      return node (Function.update ma i mi) m0 outQ burstQ
  | node ma m0 outQ burstQ, .inside i rule => do
      let mi ← (ma i).fire size rule
      return node (Function.update ma i mi) m0 outQ burstQ
  | pair _, _ => none

end BurstMerge

/-- `mkBurstMergeN`: a burst is its number of words. -/
def mkBurstMergeN {α : Type} {bSz : Nat} (n : Nat) : BurstMerge α (BitVec bSz) bSz := mkBurst n

/-- The number of words of a burst of `mkBurstMergeN`. -/
def mkBurstMergeN.size {bSz : Nat} (b : BitVec bSz) : BitVec bSz := b

/-- `mkBurstIOMergeN`: a burst is an address and a number of words. -/
def mkBurstIOMergeN {α : Type} {aSz bSz : Nat} (n : Nat)
    : BurstMerge α (BitVec aSz × BitVec bSz) bSz :=
  mkBurst n

/-- The number of words of a burst of `mkBurstIOMergeN`. -/
def mkBurstIOMergeN.size {aSz bSz : Nat} (b : BitVec aSz × BitVec bSz) : BitVec bSz := b.2

-----------------------------------------------------------------------------------------
-- What a two-port module has put out
-----------------------------------------------------------------------------------------

/-- What was announced and enqueued at each port, and the bursts and words that came out. -/
structure BurstStreams (ι α β : Type) where
  announced : ι → List β
  enqueued : ι → List α
  got : List β
  dequeued : List α

namespace BurstPair

variable {α β : Type} {bSz : Nat}

/-- The requests that wait, tagged with their ports. -/
def requests (m : BurstPair α β bSz) : List (Bool × β) :=
  m.reqM.outQ.items ++ m.reqM.inQ1.items ++ m.reqM.inQ2.items

/-- The bursts and words that a module has put out, with the ports they are from: the words
follow the bursts, the last of which lacks `burstLeft` words.
-/
structure Emits (size : β → BitVec bSz) (m : BurstPair α β bSz) (h : BurstStreams Bool α β)
    (bursts : List (Bool × β)) (words : List (Bool × α)) : Prop where
  got : bursts.map Prod.snd = h.got ++ m.burstQ.items
  dequeued : words.map Prod.snd = h.dequeued ++ m.outQ.items
  labels : words.map Prod.fst ++ List.replicate m.burstLeft.toNat m.burstSource
    = runLabels (fun b => (size b).toNat) bursts
  announced : ∀ i, withLabel i bursts ++ withLabel i m.requests = h.announced i
  enqueued : ∀ i, withLabel i words ++ (m.inQ i).items = h.enqueued i
  tags1 : ∀ r ∈ m.reqM.inQ1.items, r.1 = false
  tags2 : ∀ r ∈ m.reqM.inQ2.items, r.1 = true
  sized : ∀ i, ∀ b ∈ h.announced i, 0 < (size b).toNat

variable {size : β → BitVec bSz} {m m' : BurstPair α β bSz} {h : BurstStreams Bool α β}
  {bursts : List (Bool × β)} {words : List (Bool × α)}

/-- After reset nothing is put out. -/
theorem Emits.init
    : (BurstPair.init : BurstPair α β bSz).Emits size ⟨fun _ => [], fun _ => [], [], []⟩ [] [] :=
  ⟨rfl, rfl, rfl, fun _ => rfl, fun _ => rfl, nofun, nofun, nofun⟩

/-- A word is enqueued. -/
theorem Emits.enq {i : Bool} {d : α} (emits : m.Emits size h bursts words)
    (fires : m.enq i d = some m')
    : m'.Emits size { h with enqueued := Function.update h.enqueued i (h.enqueued i ++ [d]) }
        bursts words := by
  obtain ⟨inQ, put, ⟨⟩⟩ := Option.bind_eq_some_iff.mp fires
  obtain ⟨got, dequeued, labels, announced, enqueued, tags1, tags2, sized⟩ := emits
  refine ⟨got, dequeued, labels, announced, ?_, tags1, tags2, sized⟩
  intro j
  change withLabel j words ++ (Function.update m.inQ i inQ j).items
    = Function.update h.enqueued i (h.enqueued i ++ [d]) j
  by_cases here : j = i
  · subst here
    rw [Function.update_self, Function.update_self, (Fifo.enq_eq_some.mp put).2, ← enqueued j,
      List.append_assoc]
  · rw [Function.update_of_ne here, Function.update_of_ne here, enqueued j]

/-- A burst is announced. -/
theorem Emits.burst {i : Bool} {b : β} (emits : m.Emits size h bursts words)
    (positive : 0 < (size b).toNat) (fires : m.burst i b = some m')
    : m'.Emits size { h with announced := Function.update h.announced i (h.announced i ++ [b]) }
        bursts words := by
  obtain ⟨reqM, put, ⟨⟩⟩ := Option.bind_eq_some_iff.mp fires
  obtain ⟨got, dequeued, labels, announced, enqueued, tags1, tags2, sized⟩ := emits
  have sized' : ∀ j, ∀ other ∈ Function.update h.announced i (h.announced i ++ [b]) j,
      0 < (size other).toNat := by
    intro j other member
    by_cases here : j = i
    · subst here
      rw [Function.update_self] at member
      rcases List.mem_append.mp member with old | new
      · exact sized j other old
      · rw [List.mem_singleton.mp new]
        exact positive
    · rw [Function.update_of_ne here] at member
      exact sized j other member
  have others {j : Bool} (different : ¬i = j)
      : Function.update h.announced i (h.announced i ++ [b]) j = h.announced j :=
    Function.update_of_ne (Ne.symm different) ..
  cases i with
  | false =>
      obtain ⟨inQ1, room, ⟨⟩⟩ := Option.bind_eq_some_iff.mp put
      have items := (Fifo.enq_eq_some.mp room).2
      refine ⟨got, dequeued, labels, ?_, enqueued, ?_, tags2, sized'⟩
      · intro j
        have right : ∀ r ∈ m.reqM.inQ2.items, r.1 ≠ false := by
          intro r member
          rw [tags2 r member]
          exact Bool.noConfusion
        have none : withLabel false m.reqM.inQ2.items = [] := by
          rw [withLabel, List.map_eq_nil_iff, List.filter_eq_nil_iff]
          intro r member same
          exact right r member (of_decide_eq_true same)
        have before := announced j
        simp only [requests, withLabel_append] at before ⊢
        rw [items, withLabel_snoc]
        by_cases here : false = j
        · subst here
          rw [none, List.append_nil] at before
          rw [if_pos rfl, none, Function.update_self, ← before]
          simp only [List.append_assoc, List.append_nil]
        · rw [if_neg here, others here, before]
      · intro r member
        rw [items] at member
        rcases List.mem_append.mp member with old | new
        · exact tags1 r old
        · rw [List.mem_singleton.mp new]
  | true =>
      obtain ⟨inQ2, room, ⟨⟩⟩ := Option.bind_eq_some_iff.mp put
      have items := (Fifo.enq_eq_some.mp room).2
      refine ⟨got, dequeued, labels, ?_, enqueued, tags1, ?_, sized'⟩
      · intro j
        have before := announced j
        simp only [requests, withLabel_append] at before ⊢
        rw [items, withLabel_snoc]
        by_cases here : true = j
        · subst here
          rw [if_pos rfl, Function.update_self, ← before]
          simp only [List.append_assoc]
        · rw [if_neg here, others here, before]
      · intro r member
        rw [items] at member
        rcases List.mem_append.mp member with old | new
        · exact tags2 r old
        · rw [List.mem_singleton.mp new]

/-- A burst comes out. -/
theorem Emits.getBurst {b : β} (emits : m.Emits size h bursts words)
    (fires : m.getBurst = some (b, m'))
    : m'.Emits size { h with got := h.got ++ [b] } bursts words := by
  obtain ⟨⟨b', burstQ⟩, taken, ⟨⟩⟩ := Option.bind_eq_some_iff.mp fires
  refine { emits with got := ?_ }
  rw [emits.got, Fifo.deq_eq_some.mp taken, List.append_assoc]
  rfl

/-- A word comes out. -/
theorem Emits.deq {d : α} (emits : m.Emits size h bursts words)
    (fires : m.deq = some (d, m'))
    : m'.Emits size { h with dequeued := h.dequeued ++ [d] } bursts words := by
  obtain ⟨⟨d', outQ⟩, taken, ⟨⟩⟩ := Option.bind_eq_some_iff.mp fires
  refine { emits with dequeued := ?_ }
  rw [emits.dequeued, Fifo.deq_eq_some.mp taken, List.append_assoc]
  rfl

/-- Requests move towards the output of their merge. -/
theorem Emits.merge (emits : m.Emits size h bursts words) (fires : m.merge = some m')
    : m'.Emits size h bursts words := by
  obtain ⟨reqM, merged, ⟨⟩⟩ := Option.bind_eq_some_iff.mp fires
  obtain ⟨got, dequeued, labels, announced, enqueued, tags1, tags2, sized⟩ := emits
  rcases Merge2.merge_cases merged with ⟨r, taken, same, put⟩ | ⟨r, taken, same, put⟩
    | ⟨same1, same2, same⟩
  · refine ⟨got, dequeued, labels, ?_, enqueued, ?_, ?_, sized⟩
    · intro i
      have before := announced i
      simp only [requests, taken] at before
      simp only [requests, put, same]
      simpa [List.append_assoc] using before
    · exact fun other member => tags1 other (by simp [taken, member])
    · rw [same]
      exact tags2
  · refine ⟨got, dequeued, labels, ?_, enqueued, ?_, ?_, sized⟩
    · intro i
      have before := announced i
      have tag : r.1 = true := tags2 r (by simp [taken])
      obtain ⟨_, b⟩ := r
      subst tag
      simp only [requests, taken, withLabel_append, withLabel_cons] at before
      simp only [requests, put, same, withLabel_append]
      rw [← before]
      cases i with
      | false => simp [withLabel_cons]
      | true =>
          have none : withLabel true m.reqM.inQ1.items = [] := by
            rw [withLabel, List.map_eq_nil_iff, List.filter_eq_nil_iff]
            intro other member
            simp [tags1 other member]
          simp [withLabel_cons, none]
    · rw [same]
      exact tags1
    · exact fun other member => tags2 other (by simp [taken, member])
  · refine ⟨got, dequeued, labels, ?_, enqueued, ?_, ?_, sized⟩
    · simp only [requests, same, same1, same2]
      exact announced
    · rw [same1]
      exact tags1
    · rw [same2]
      exact tags2

/-- A nonzero counter is one more than its predecessor. -/
theorem toNat_pred {left : BitVec bSz} (some : left.toNat ≠ 0)
    : left.toNat = (left - 1).toNat + 1 := by
  have wide : 0 < bSz := by
    rcases Nat.eq_zero_or_pos bSz with rfl | wide
    · exact absurd (by simp [BitVec.eq_nil left]) some
    · exact wide
  have one : (1 : BitVec bSz).toNat = 1 := by
    rw [BitVec.ofNat_eq_ofNat, BitVec.toNat_ofNat]
    exact Nat.mod_eq_of_lt (Nat.one_lt_two_pow (Nat.ne_of_gt wide))
  rw [BitVec.toNat_sub_of_le (by rw [BitVec.le_def, one]; omega), one]
  omega

/-- A word of a port that is taken to the output. -/
theorem Emits.taken {i : Bool} {d : α} {inQ : Fifo α 2}
    (enqueued : ∀ i, withLabel i words ++ (m.inQ i).items = h.enqueued i)
    (items : (m.inQ i).items = d :: inQ.items) (j : Bool)
    : withLabel j (words ++ [(i, d)]) ++ (Function.update m.inQ i inQ j).items
      = h.enqueued j := by
  rw [withLabel_snoc]
  by_cases here : i = j
  · subst here
    rw [if_pos rfl, Function.update_self, ← enqueued i, items, List.append_assoc]
    rfl
  · rw [if_neg here, Function.update_of_ne (Ne.symm here), enqueued j]

/-- A word is put out, as the first one of a new burst or within the burst that is under way.
-/
theorem Emits.relay (emits : m.Emits size h bursts words) (fires : m.relay size = some m')
    : (∃ i r d, m'.Emits size h (bursts ++ [(i, r)]) (words ++ [(i, d)]))
      ∨ ∃ i d, m'.Emits size h bursts (words ++ [(i, d)]) := by
  obtain ⟨got, dequeued, labels, announced, enqueued, tags1, tags2, sized⟩ := emits
  unfold BurstPair.relay at fires
  split at fires
  next fresh =>
    obtain ⟨⟨⟨i, r⟩, reqM⟩, asked, fires⟩ := Option.bind_eq_some_iff.mp fires
    obtain ⟨⟨d, inQ⟩, taken, fires⟩ := Option.bind_eq_some_iff.mp fires
    obtain ⟨outQ, put, fires⟩ := Option.bind_eq_some_iff.mp fires
    obtain ⟨burstQ, started, ⟨⟩⟩ := Option.bind_eq_some_iff.mp fires
    obtain ⟨⟨_, rest⟩, first, ⟨⟩⟩ := Option.bind_eq_some_iff.mp asked
    have oldest := Fifo.deq_eq_some.mp first
    have requested := announced i
    rw [requests, oldest, List.cons_append, List.cons_append, withLabel_cons, if_pos rfl]
      at requested
    have positive : (size r).toNat ≠ 0 := by
      refine Nat.ne_of_gt (sized i r ?_)
      rw [← requested]
      simp
    refine .inl ⟨i, r, d, ?_, ?_, ?_, ?_, ?_, tags1, tags2, sized⟩
    · rw [List.map_append, got, List.append_assoc, (Fifo.enq_eq_some.mp started).2]
      rfl
    · rw [List.map_append, dequeued, List.append_assoc, (Fifo.enq_eq_some.mp put).2]
      rfl
    · rw [fresh] at labels
      rw [runLabels_append, runLabels_singleton, ← labels, List.map_append, toNat_pred positive,
        List.replicate_succ]
      simp
    · intro j
      have before := announced j
      simp only [requests, oldest, List.cons_append, withLabel_cons] at before ⊢
      rw [withLabel_snoc, ← before]
      split
      · rw [List.append_assoc, List.singleton_append]
      · rfl
    · exact Emits.taken enqueued (Fifo.deq_eq_some.mp taken)
  next under =>
    obtain ⟨⟨d, inQ⟩, taken, fires⟩ := Option.bind_eq_some_iff.mp fires
    obtain ⟨outQ, put, ⟨⟩⟩ := Option.bind_eq_some_iff.mp fires
    have some : m.burstLeft.toNat ≠ 0 := fun zero => under (BitVec.eq_of_toNat_eq zero)
    refine .inr ⟨m.burstSource, d, got, ?_, ?_, announced, ?_, tags1, tags2, sized⟩
    · rw [List.map_append, dequeued, List.append_assoc, (Fifo.enq_eq_some.mp put).2]
      rfl
    · rw [← labels, List.map_append, toNat_pred some, List.replicate_succ]
      simp
    · exact Emits.taken enqueued (Fifo.deq_eq_some.mp taken)

end BurstPair

end BluespecPcie

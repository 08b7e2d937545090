import BluespecPcie.Bluespec.Machine
import BluespecPcie.PcieCtrl.Frames
import BluespecPcie.PcieCtrl.Requests

/-! In which order the user logic sees the host's accesses: writes and reads leave the common
queue for chains of their own, so a read stays behind the writes before it only if these are
through when it leaves.
-/

namespace BluespecPcie

open Bluespec

-----------------------------------------------------------------------------------------
-- Accesses to the user region
-----------------------------------------------------------------------------------------

/-- An access as the user logic sees it. -/
inductive UserAccess where
  | read (r : IOReadReq)
  | write (w : IOWrite)
deriving DecidableEq

namespace UserAccess

/-- The read, if the access is one. -/
def read? : UserAccess → Option IOReadReq
  | read r => some r
  | write _ => none

/-- The write, if the access is one. -/
def write? : UserAccess → Option IOWrite
  | read _ => none
  | write w => some w

end UserAccess

/-- The reads among accesses. -/
def readsOf (accesses : List UserAccess) : List IOReadReq := accesses.filterMap (·.read?)

/-- The writes among accesses. -/
def writesOf (accesses : List UserAccess) : List IOWrite := accesses.filterMap (·.write?)

@[simp] theorem readsOf_append (xs ys : List UserAccess)
    : readsOf (xs ++ ys) = readsOf xs ++ readsOf ys :=
  List.filterMap_append

@[simp] theorem writesOf_append (xs ys : List UserAccess)
    : writesOf (xs ++ ys) = writesOf xs ++ writesOf ys :=
  List.filterMap_append

/-- The access a request makes to the user region, if it makes one. -/
def userAccess (tlp : BitVec 128) : Option UserAccess :=
  if answerSource tlp = some .user then
    some (.read (PcieCtrl.readRequest tlp io_userspace_offset))
  else if isWrite (tlpType tlp) = true ∧ ¬internalAddr tlp < io_userspace_offset then
    some (.write (PcieCtrl.ioWrite tlp))
  else none

/-- The accesses of requests. -/
def userAccesses (tlps : List (BitVec 128)) : List UserAccess := tlps.filterMap userAccess

@[simp] theorem userAccesses_append (xs ys : List (BitVec 128))
    : userAccesses (xs ++ ys) = userAccesses xs ++ userAccesses ys :=
  List.filterMap_append

/-- A further request in front. -/
theorem userAccesses_cons (tlp : BitVec 128) (rest : List (BitVec 128))
    : userAccesses (tlp :: rest) = (userAccess tlp).toList ++ userAccesses rest := by
  rw [userAccesses, List.filterMap_cons]
  cases userAccess tlp <;> rfl

/-- The access of one request. -/
theorem userAccesses_singleton (tlp : BitVec 128)
    : userAccesses [tlp] = (userAccess tlp).toList := by
  rw [userAccesses_cons]
  exact List.append_nil _

/-- A user read is passed on as such. -/
theorem userAccess_read {tlp : BitVec 128} (source : answerSource tlp = some .user)
    : userAccess tlp = some (.read (PcieCtrl.readRequest tlp io_userspace_offset)) := by
  rw [userAccess, if_pos source]

/-- A write is passed on if it is in the user region. -/
theorem userAccess_write {tlp : BitVec 128} (write : isWrite (tlpType tlp) = true)
    : userAccess tlp
      = if internalAddr tlp < io_userspace_offset then none
        else some (.write (PcieCtrl.ioWrite tlp)) := by
  have other : answerSource tlp ≠ some .user := by
    rw [answerSource_write write]
    split <;> decide
  rw [userAccess, if_neg other]
  by_cases config : internalAddr tlp < io_userspace_offset
  · rw [if_pos config, if_neg (fun both => both.2 config)]
  · rw [if_neg config, if_pos ⟨write, config⟩]

/-- Other reads are not the user's. -/
theorem userAccess_none {tlp : BitVec 128} {source : TlpSource}
    (some : answerSource tlp = some source) (reads : source ≠ .ioWrite) (other : source ≠ .user)
    : userAccess tlp = none := by
  have read := isRead_of_source some reads
  rw [userAccess, if_neg, if_neg]
  · rintro ⟨write, _⟩
    rw [isRead_excludes read] at write
    cases write
  · rw [some]
    intro same
    exact other (Option.some.inj same)

-----------------------------------------------------------------------------------------
-- History
-----------------------------------------------------------------------------------------

/-- The user accesses that arrived, and those handed out by `dataReq` and `dataReceive`. -/
structure UserLog where
  arrived : List UserAccess
  handed : List UserAccess

/-- Nothing has happened. -/
def UserLog.start : UserLog := ⟨[], []⟩

/-- What a call adds to the history. -/
def UserLog.after (log : UserLog) : RequestCall → UserLog
  | .received tlp => { log with arrived := log.arrived ++ (userAccess tlp).toList }
  | .took r => { log with handed := log.handed ++ [.read r] }
  | .delivered w => { log with handed := log.handed ++ [.write w] }
  | _ => log

def UserLog.record (s : PcieCtrl) (e : Event) (log : UserLog) : UserLog :=
  log.after (s.requestCall e)

/-- Every read handed out is the next of those that arrived, and the writes that arrived
before it have been handed out before it.
-/
def UserLog.InOrder (log : UserLog) : Prop :=
  ∀ before r after,
    log.handed = before ++ .read r :: after
    → ∃ earlier later,
        log.arrived = earlier ++ .read r :: later
        ∧ readsOf earlier = readsOf before
        ∧ writesOf earlier <+: writesOf before

/-- Reads and writes are each handed out in the order in which they arrived. -/
def UserLog.InOwnOrder (log : UserLog) : Prop :=
  readsOf log.handed <+: readsOf log.arrived ∧ writesOf log.handed <+: writesOf log.arrived

/-- No write to the user region waits in `tlp3Q` or behind it. -/
def PcieCtrl.WritesThrough (s : PcieCtrl) : Prop :=
  userAccesses s.rx.tlp3Q.items = [] ∧ s.io.userWrite1Q.items = []
    ∧ s.io.userWriteQ.items = [] ∧ s.io.userWrite2Q.items = []

instance decidableWritesThrough (s : PcieCtrl) : Decidable s.WritesThrough :=
  inferInstanceAs (Decidable (_ ∧ _ ∧ _ ∧ _))

/-- When `procTLP` moves a user read to `userReadQ0`, the user writes before it are through. -/
def ReadsBehindWrites (s : PcieCtrl) : Event → Prop
  | .procTLP => match s.rx.tlp2Q.first with
      | some tlp => answerSource tlp = some .user → s.WritesThrough
      | none => True
  | _ => True

instance decidableReadsBehindWrites (s : PcieCtrl) (e : Event)
    : Decidable (ReadsBehindWrites s e) := by
  apply Event.casesOn (motive := fun e => Decidable (ReadsBehindWrites s e)) e <;> intros
  case procTLP =>
    unfold ReadsBehindWrites
    generalize s.rx.tlp2Q.first = first
    exact first.casesOn (isTrue trivial) (fun _ => inferInstanceAs (Decidable (_ → _)))
  all_goals exact isTrue trivial

-----------------------------------------------------------------------------------------
-- One step
-----------------------------------------------------------------------------------------

/-- The accesses that arrived are those that left the common queues (`passed`) and those still
in them; reads and writes that left are handed out or wait in their own chains.
-/
structure UserPassed (v : RequestView) (log : UserLog) (passed : List UserAccess) : Prop where
  arrived : log.arrived = passed ++ userAccesses (v.tlp2Q ++ v.tlpQ)
  reads : readsOf passed = readsOf log.handed ++ v.userReads
  writes : writesOf passed
    = writesOf log.handed ++ v.userWrites ++ writesOf (userAccesses v.tlp3Q)

/-- The accesses that a step moves out of the common queues; a read leaves `tlp2Q` at its
head.
-/
inductive Leaves (v v' : RequestView) : List UserAccess → Prop
  | nothing : Leaves v v' []
  | read {tlp : BitVec 128} (head : v.tlp2Q = tlp :: v'.tlp2Q)
    (source : answerSource tlp = some .user) (r : IOReadReq)
    : Leaves v v' [.read r]
  | write (w : IOWrite) : Leaves v v' [.write w]

/-- The effect of a write on the user's queue. -/
theorem RequestView.write_user (v : RequestView) {tlp : BitVec 128}
    (write : isWrite (tlpType tlp) = true)
    : (v.write tlp).userReads = v.userReads
      ∧ (v.write tlp).tlp3Q = v.tlp3Q
      ∧ (v.write tlp).tlp2Q = v.tlp2Q
      ∧ (v.write tlp).tlpQ = v.tlpQ
      ∧ (v.write tlp).userWrites = v.userWrites ++ writesOf (userAccess tlp).toList := by
  rw [userAccess_write write, RequestView.write]
  by_cases reset : internalAddr tlp = 0
  · have config : internalAddr tlp < io_userspace_offset := by
      rw [reset]
      decide
    rw [if_pos reset, if_pos config]
    exact ⟨rfl, rfl, rfl, rfl, (List.append_nil _).symm⟩
  · rw [if_neg reset]
    by_cases config : internalAddr tlp < io_userspace_offset
    · rw [if_pos config, if_pos config]
      exact ⟨rfl, rfl, rfl, rfl, (List.append_nil _).symm⟩
    · rw [if_neg config, if_neg config]
      exact ⟨rfl, rfl, rfl, rfl, rfl⟩

/-- A write that takes effect goes on to the user's queue. -/
theorem UserPassed.applied {v : RequestView} {log : UserLog} {passed : List UserAccess}
    (account : UserPassed v log passed) {tlp : BitVec 128} {rest : List (BitVec 128)}
    (head : v.tlp3Q = tlp :: rest) (write : isWrite (tlpType tlp) = true)
    : UserPassed ({ v with tlp3Q := rest }.write tlp) log passed := by
  obtain ⟨arrived, reads, writes⟩ := account
  obtain ⟨userReads, tlp3Q, tlp2Q, tlpQ, userWrites⟩ :=
    RequestView.write_user { v with tlp3Q := rest } write
  refine ⟨?_, ?_, ?_⟩
  · rw [tlp2Q, tlpQ]
    exact arrived
  · rw [userReads]
    exact reads
  · rw [userWrites, tlp3Q, writes, head, userAccesses_cons, writesOf_append]
    simp only [List.append_assoc]

/-- Every step keeps the account of the accesses. -/
theorem UserPassed.step {v v' : RequestView} {log : UserLog} {passed : List UserAccess}
    {offer : Option (TlpSource × SendTLP)} {call : RequestCall}
    (account : UserPassed v log passed) (placed : v.Placed)
    (moves : RequestStep v v' offer call)
    : ∃ added, Leaves v v' added ∧ UserPassed v' (log.after call) (passed ++ added) := by
  obtain ⟨arrived, reads, writes⟩ := account
  cases moves with
  | idle _ => exact ⟨[], .nothing, by rw [List.append_nil]; exact ⟨arrived, reads, writes⟩⟩
  | @receive tlp _ =>
      refine ⟨[], .nothing, ?_, ?_, ?_⟩
      · change log.arrived ++ (userAccess tlp).toList
          = passed ++ [] ++ userAccesses (v.tlp2Q ++ (v.tlpQ ++ [tlp]))
        rw [arrived, ← List.append_assoc v.tlp2Q, userAccesses_append _ [tlp],
          userAccesses_singleton, List.append_nil, List.append_assoc]
      · rw [List.append_nil]
        exact reads
      · rw [List.append_nil]
        exact writes
  | @status tlp rest b head source _ _ _ =>
      have none := userAccess_none source (by decide) (by decide)
      refine ⟨[], .nothing, ?_, ?_, ?_⟩
      · change log.arrived = passed ++ [] ++ userAccesses (v.tlp2Q ++ rest)
        rw [arrived, head, userAccesses_append, userAccesses_cons, none, List.append_nil,
          userAccesses_append]
        rfl
      · rw [List.append_nil]
        exact reads
      · rw [List.append_nil]
        exact writes
  | @pass tlp rest head _ =>
      have same : v.tlp2Q ++ [tlp] ++ rest = v.tlp2Q ++ v.tlpQ := by
        rw [head, List.append_assoc, List.singleton_append]
      refine ⟨[], .nothing, ?_, ?_, ?_⟩
      · change log.arrived = passed ++ [] ++ userAccesses (v.tlp2Q ++ [tlp] ++ rest)
        rw [arrived, same, List.append_nil]
      · rw [List.append_nil]
        exact reads
      · rw [List.append_nil]
        exact writes
  | @configRead tlp rest head source =>
      have none := userAccess_none source (by decide) (by decide)
      refine ⟨[], .nothing, ?_, ?_, ?_⟩
      · change log.arrived = passed ++ [] ++ userAccesses (rest ++ v.tlpQ)
        rw [arrived, head, List.cons_append, userAccesses_cons, none, List.append_nil]
        rfl
      · rw [List.append_nil]
        exact reads
      · rw [List.append_nil]
        exact writes
  | @userRead tlp rest head source =>
      let r := PcieCtrl.readRequest tlp io_userspace_offset
      refine ⟨[.read r], .read head source r, ?_, ?_, ?_⟩
      · change log.arrived = passed ++ [.read r] ++ userAccesses (rest ++ v.tlpQ)
        rw [arrived, head, List.cons_append, userAccesses_cons, userAccess_read source,
          List.append_assoc]
        rfl
      · change readsOf (passed ++ [.read r]) = readsOf log.handed ++ (v.userReads ++ [r])
        rw [readsOf_append, reads, List.append_assoc]
        rfl
      · rw [writesOf_append, writes]
        exact List.append_nil _
  | @write tlp rest head write =>
      have moved : UserPassed { v with tlp2Q := rest, tlp3Q := v.tlp3Q ++ [tlp] } log
          (passed ++ (userAccess tlp).toList) := by
        have noRead : readsOf (userAccess tlp).toList = [] := by
          rw [userAccess_write write]
          split <;> rfl
        constructor
        · rw [arrived, head, List.cons_append, userAccesses_cons, List.append_assoc]
        · rw [readsOf_append, noRead, List.append_nil]
          exact reads
        · change _ = _ ++ _ ++ writesOf (userAccesses (v.tlp3Q ++ [tlp]))
          rw [writesOf_append, writes, userAccesses_append, userAccesses_singleton,
            writesOf_append, List.append_assoc]
      rw [userAccess_write write] at moved
      split at moved
      next => exact ⟨[], .nothing, moved⟩
      next => exact ⟨[.write _], .write _, moved⟩
  | config _ _ _ _ =>
      exact ⟨[], .nothing, by rw [List.append_nil]; exact ⟨arrived, reads, writes⟩⟩
  | @ioWrite tlp rest b head _ _ =>
      have write := placed.inTlp3Q tlp (by simp [head])
      refine ⟨[], .nothing, ?_⟩
      rw [List.append_nil]
      exact UserPassed.applied ⟨arrived, reads, writes⟩ head write
  | @posted tlp rest head _ =>
      have write := placed.inTlp3Q tlp (by simp [head])
      refine ⟨[], .nothing, ?_⟩
      rw [List.append_nil]
      exact UserPassed.applied ⟨arrived, reads, writes⟩ head write
  | @dataReq r rest head =>
      refine ⟨[], .nothing, ?_, ?_, ?_⟩
      · rw [List.append_nil]
        exact arrived
      · change readsOf (passed ++ []) = readsOf (log.handed ++ [.read r]) ++ rest
        rw [List.append_nil, reads, head, readsOf_append, List.append_assoc]
        rfl
      · change writesOf (passed ++ []) = writesOf (log.handed ++ [.read r]) ++ _ ++ _
        rw [List.append_nil, writes, writesOf_append]
        simp [writesOf, UserAccess.write?]
  | dataSend _ =>
      exact ⟨[], .nothing, by rw [List.append_nil]; exact ⟨arrived, reads, writes⟩⟩
  | @dataReceive w rest head =>
      refine ⟨[], .nothing, ?_, ?_, ?_⟩
      · rw [List.append_nil]
        exact arrived
      · change readsOf (passed ++ []) = readsOf (log.handed ++ [.write w]) ++ v.userReads
        rw [List.append_nil, reads, readsOf_append]
        simp [readsOf, UserAccess.read?]
      · change writesOf (passed ++ []) = writesOf (log.handed ++ [.write w]) ++ rest ++ _
        rw [List.append_nil, writes, head, writesOf_append]
        simp [writesOf, UserAccess.write?]

/-- The writes before every read that left the common queues are handed out, and so are those
before every read handed out.
-/
structure UserSettled (log : UserLog) (passed : List UserAccess) : Prop where
  behind : ∀ earlier r later, passed = earlier ++ .read r :: later →
    writesOf earlier <+: writesOf log.handed
  inOrder : log.InOrder

/-- A read in a list with one more access is the last one or was there before. -/
theorem read_in_snoc {accesses earlier later : List UserAccess} {x : UserAccess}
    {r : IOReadReq} (split : accesses ++ [x] = earlier ++ .read r :: later)
    : (∃ shorter, later = shorter ++ [x] ∧ accesses = earlier ++ .read r :: shorter)
      ∨ (later = [] ∧ accesses = earlier ∧ x = .read r) := by
  rcases List.eq_nil_or_concat later with rfl | ⟨shorter, last, rfl⟩
  · obtain ⟨same, single⟩ := List.append_inj' split rfl
    exact .inr ⟨rfl, same, (List.cons.inj single).1⟩
  · rw [List.concat_eq_append, ← List.cons_append, ← List.append_assoc] at split
    obtain ⟨same, single⟩ := List.append_inj' split rfl
    rw [List.concat_eq_append, (List.cons.inj single).1]
    exact .inl ⟨shorter, rfl, same⟩

/-- The access behind some of the reads. -/
theorem split_at_read {accesses : List UserAccess} {rs rest : List IOReadReq} {r : IOReadReq}
    (reads : readsOf accesses = rs ++ r :: rest)
    : ∃ earlier later, accesses = earlier ++ .read r :: later ∧ readsOf earlier = rs := by
  obtain ⟨first, second, rfl, before, behind⟩ := List.filterMap_eq_append_iff.mp reads
  obtain ⟨skipped, access, later, rfl, none, isRead, _⟩ := List.filterMap_eq_cons_iff.mp behind
  have empty : readsOf skipped = [] := List.filterMap_eq_nil_iff.mpr none
  cases access with
  | write w => cases isRead
  | read r' =>
      cases isRead
      refine ⟨first ++ skipped, later, by simp, ?_⟩
      rw [readsOf_append, empty, List.append_nil]
      exact before

/-- What is handed out stays handed out. -/
theorem writesOf_handed (log : UserLog) (call : RequestCall)
    : writesOf log.handed <+: writesOf (log.after call).handed := by
  cases call
  case took r => exact writesOf_append .. ▸ List.prefix_append ..
  case delivered w => exact writesOf_append .. ▸ List.prefix_append ..
  all_goals exact List.prefix_rfl

/-- A step keeps the order, if a read that it moves to its own chain finds no write waiting. -/
theorem UserSettled.step {v v' : RequestView} {log : UserLog} {passed added : List UserAccess}
    {offer : Option (TlpSource × SendTLP)} {call : RequestCall}
    (settled : UserSettled log passed) (account : UserPassed v log passed)
    (leaves : Leaves v v' added)
    (through : ∀ tlp, v.tlp2Q = tlp :: v'.tlp2Q → answerSource tlp = some .user →
      v.userWrites = [] ∧ userAccesses v.tlp3Q = [])
    (moves : RequestStep v v' offer call)
    : UserSettled (log.after call) (passed ++ added) := by
  obtain ⟨behind, inOrder⟩ := settled
  have longer := writesOf_handed log call
  constructor
  case behind =>
    intro earlier r later split
    refine List.IsPrefix.trans ?_ longer
    cases leaves with
    | nothing =>
        rw [List.append_nil] at split
        exact behind earlier r later split
    | read head source r' =>
        rcases read_in_snoc split with ⟨shorter, _, old⟩ | ⟨_, rfl, _⟩
        · exact behind earlier r shorter old
        · obtain ⟨userWrites, tlp3Q⟩ := through _ head source
          have writes := account.writes
          have all : writesOf passed = writesOf log.handed := by
            rw [writes, userWrites, tlp3Q, List.append_nil]
            exact List.append_nil _
          rw [all]
    | write w =>
        rcases read_in_snoc split with ⟨shorter, _, old⟩ | ⟨_, _, other⟩
        · exact behind earlier r shorter old
        · cases other
  case inOrder =>
    intro before r after split
    have old {shorter : List UserAccess} (handed : log.handed = before ++ .read r :: shorter)
        : ∃ earlier later,
            (log.after call).arrived = earlier ++ .read r :: later
            ∧ readsOf earlier = readsOf before
            ∧ writesOf earlier <+: writesOf before := by
      obtain ⟨earlier, later, arrived, reads, writes⟩ := inOrder before r shorter handed
      cases call
      case received tlp =>
        refine ⟨earlier, later ++ (userAccess tlp).toList, ?_, reads, writes⟩
        simp [UserLog.after, arrived]
      all_goals exact ⟨earlier, later, arrived, reads, writes⟩
    cases call
    case took r' =>
      rcases read_in_snoc split with ⟨shorter, _, handed⟩ | ⟨_, rfl, same⟩
      · exact old handed
      · cases same
        cases moves with
        | @dataReq _ rest head =>
            have reads := account.reads
            rw [head] at reads
            obtain ⟨earlier, later, here, before⟩ := split_at_read reads
            refine ⟨earlier, later ++ userAccesses (v.tlp2Q ++ v.tlpQ), ?_, before,
              behind earlier r later here⟩
            change log.arrived = _
            rw [account.arrived, here, List.append_assoc, List.cons_append]
    case delivered w =>
      rcases read_in_snoc split with ⟨shorter, _, handed⟩ | ⟨_, _, other⟩
      · exact old handed
      · cases other
    all_goals exact old split

open PcieCtrl in
/-- Only `procTLP` takes requests from `tlp2Q`. -/
theorem tlp2Q_kept {s s' : PcieCtrl} {e : Event} (fires : s.step e = some s')
    (other : e ≠ .procTLP)
    : s.rx.tlp2Q.items.length ≤ s'.rx.tlp2Q.items.length := by
  have frame := step_unchanged fires
  cases e
  case procTLP => exact absurd rfl other
  case recvTLP b =>
    rcases recvTLP_cases fires with ⟨_, rfl⟩ | ⟨_, _, _, _, _, _, _, rfl⟩
    · exact Nat.le_refl _
    · exact Nat.le_refl _
  case procCompletionTLP =>
    obtain ⟨_, _, _, _, _, _, _, _, _, rfl⟩ := procCompletionTLP_cases fires
    exact Nat.le_refl _
  case filterStatReadTLP =>
    obtain ⟨_, tlp, _, _, _, _, _, ⟨_, _, _, _, _, rfl⟩ | ⟨tlp2Q, _, _, put, rfl⟩
      | ⟨_, _, _, _, _, _, rfl⟩⟩ := filterStatReadTLP_cases fires
    · exact Nat.le_refl _
    · simp [put]
    · exact Nat.le_refl _
  case procIOWrite =>
    obtain ⟨_, _, _, _, _, ⟨_, rfl⟩ | ⟨_, _, rfl⟩ | ⟨_, _, _, _, rfl⟩⟩ :=
      procIOWrite_cases fires
    all_goals exact Nat.le_refl _
  all_goals
    rw [frame.rx (by simp [Event.parts])]

/-- A read that leaves `tlp2Q` under the condition finds no write waiting. -/
theorem ReadsBehindWrites.through {s s' : PcieCtrl} {e : Event}
    (behind : ReadsBehindWrites s e) (fires : s.step e = some s') {tlp : BitVec 128}
    (head : s.requests.tlp2Q = tlp :: s'.requests.tlp2Q)
    (source : answerSource tlp = some .user)
    : s.requests.userWrites = [] ∧ userAccesses s.requests.tlp3Q = [] := by
  have moved : e = .procTLP := by
    by_contra other
    have kept := tlp2Q_kept fires other
    change s.rx.tlp2Q.items = tlp :: s'.rx.tlp2Q.items at head
    rw [head, List.length_cons] at kept
    omega
  subst moved
  have first : s.rx.tlp2Q.first = some tlp := Fifo.first_eq_some.mpr ⟨_, head⟩
  simp only [ReadsBehindWrites, first] at behind
  obtain ⟨tlp3Q, write1, write, write2⟩ := behind source
  refine ⟨?_, tlp3Q⟩
  change s.io.userWrite2Q.items ++ s.io.userWriteQ.items ++ s.io.userWrite1Q.items = []
  rw [write1, write, write2]
  rfl

-----------------------------------------------------------------------------------------
-- Whole runs
-----------------------------------------------------------------------------------------

/-- The device receives requests only, and user reads leave `tlp2Q` behind the writes. -/
def ReadsPushWrites (state : PcieCtrl × UserLog) (e : Event) : Prop :=
  ReceivesRequests e ∧ ReadsBehindWrites state.1 e

instance decidableReadsPushWrites (state : PcieCtrl × UserLog) (e : Event)
    : Decidable (ReadsPushWrites state e) :=
  inferInstanceAs (Decidable (_ ∧ _))

/-- What is handed out and what waits is what arrived, in every run; induction on the run. -/
theorem user_passed {p : PowerUp} {state : PcieCtrl × UserLog}
    (run : Reach (traced PcieCtrl.step UserLog.record) (fun _ e => ReceivesRequests e)
      (mkPcieCtrl p, UserLog.start) state)
    : RequestsOnly state.1 ∧ ∃ passed, UserPassed state.1.requests state.2 passed := by
  refine run.invariant (P := fun state => RequestsOnly state.1 ∧ ∃ passed,
    UserPassed state.1.requests state.2 passed) ?_ ?_
  · exact ⟨RequestsOnly.init p, [], rfl, rfl, rfl⟩
  · rintro ⟨s, log⟩ e ⟨s', log'⟩ ⟨only, passed, account⟩ receives fires
    obtain ⟨fired, rfl⟩ := traced_eq_some.mp fires
    obtain ⟨added, _, account'⟩ := account.step only.placed (request_step only receives fired)
    exact ⟨only.step receives fired, passed ++ added, account'⟩

/-- Reads that leave `tlp2Q` only when the user writes before them are through stay behind
these; induction on the run.
-/
theorem user_settled {p : PowerUp} {state : PcieCtrl × UserLog}
    (run : Reach (traced PcieCtrl.step UserLog.record) ReadsPushWrites
      (mkPcieCtrl p, UserLog.start) state)
    : RequestsOnly state.1 ∧ ∃ passed,
        UserPassed state.1.requests state.2 passed ∧ UserSettled state.2 passed := by
  refine run.invariant (P := fun state => RequestsOnly state.1 ∧ ∃ passed,
    UserPassed state.1.requests state.2 passed ∧ UserSettled state.2 passed) ?_ ?_
  · refine ⟨RequestsOnly.init p, [], ⟨rfl, rfl, rfl⟩, ?_, ?_⟩
    · intro earlier r later split
      simp at split
    · intro before r after split
      simp [UserLog.start] at split
  · rintro ⟨s, log⟩ e ⟨s', log'⟩ ⟨only, passed, account, settled⟩ ⟨receives, behind⟩ fires
    obtain ⟨fired, rfl⟩ := traced_eq_some.mp fires
    have moves := request_step only receives fired
    obtain ⟨added, leaves, account'⟩ := account.step only.placed moves
    refine ⟨only.step receives fired, passed ++ added, account', ?_⟩
    exact settled.step account leaves (fun _ head source => behind.through fired head source)
      moves

/-- The user logic sees writes in order and reads in order, in every run; and it sees a read
behind all writes that arrived before it in every run in which user reads leave `tlp2Q` only
when the user writes before them are through.
-/
theorem user_order (p : PowerUp)
    : (∀ state, Reach (traced PcieCtrl.step UserLog.record) (fun _ e => ReceivesRequests e)
          (mkPcieCtrl p, UserLog.start) state → state.2.InOwnOrder)
      ∧ ∀ state, Reach (traced PcieCtrl.step UserLog.record) ReadsPushWrites
          (mkPcieCtrl p, UserLog.start) state → state.2.InOrder := by
  constructor
  · intro state run
    obtain ⟨_, passed, account⟩ := user_passed run
    rw [UserLog.InOwnOrder, account.arrived, readsOf_append, writesOf_append, account.reads,
      account.writes]
    simp only [List.append_assoc]
    exact ⟨List.prefix_append .., List.prefix_append ..⟩
  · intro state run
    obtain ⟨_, passed, _, settled⟩ := user_settled run
    exact settled.inOrder

/-- A write of 7 to the start of the user region and a read of it arrive, and the write leaves
`tlp2Q`.
-/
def writeThenUserRead : List Event :=
  [.recvTLP ⟨packDWs (reverseEndian 7) 16384 0x0000000f 0x40000001, 0xffff, 0x204000⟩,
    .recvTLP ⟨packDWs 0 16384 0x0001000f 1, 0x0fff, 0x204000⟩, .filterStatReadTLP,
    .filterStatReadTLP, .procTLP]

/-- The write as the user logic sees it. -/
def userWriteOfSeven : IOWrite := { addr := 0, data := 7 }

/-- The read as the user logic sees it. -/
def userReadOfZero : IOReadReq :=
  { requesterID := 1, tag := 0, addr := 0, tc := 0, td := 0, ep := 0, attr := 0 }

/-- Not every run hands out accesses in order: the read is through its chain while the write
waits in `tlp3Q`.
-/
theorem user_read_overtakes
    : ∃ state, Reach (traced PcieCtrl.step UserLog.record) (fun _ e => ReceivesRequests e)
          (mkPcieCtrl default, UserLog.start) state
        ∧ ¬state.2.InOrder := by
  obtain ⟨state, run, seen⟩ := exec_reach_map (traced PcieCtrl.step UserLog.record)
    (fun _ e => ReceivesRequests e) (mkPcieCtrl default, UserLog.start)
    (writeThenUserRead ++ [.procTLP, .relayUserReadQ0, .relayUserReadQ1, .dataReq])
    (fun state => (state.2.arrived, state.2.handed))
    ([.write userWriteOfSeven, .read userReadOfZero], [.read userReadOfZero])
    (by
      simp only [mkPcieCtrl, mkMergeN_eight]
      decide +kernel)
  obtain ⟨arrived, handed⟩ := Prod.mk.inj seen
  refine ⟨state, run, ?_⟩
  intro inOrder
  obtain ⟨earlier, later, split, reads, writes⟩ := inOrder [] _ [] handed
  have none : earlier = [] := by
    have noWrites : writesOf earlier = [] := List.prefix_nil.mp writes
    cases earlier with
    | nil => rfl
    | cons access rest =>
        cases access with
        | read r => cases reads
        | write w => cases noWrites
  rw [arrived, none] at split
  cases split

/-- Once the write is through, the read may leave, and both are handed out in order. -/
theorem user_order_writeThenUserRead
    : ∃ state : PcieCtrl × UserLog,
        Reach (traced PcieCtrl.step UserLog.record) ReadsPushWrites
          (mkPcieCtrl default, UserLog.start) state
        ∧ state.2.handed = [.write userWriteOfSeven, .read userReadOfZero]
        ∧ state.2.InOrder := by
  obtain ⟨state, run, handed⟩ := exec_reach_map (traced PcieCtrl.step UserLog.record)
    ReadsPushWrites (mkPcieCtrl default, UserLog.start)
    (writeThenUserRead ++ [.procIOWrite, .relayUserWriteQ, .relayUserWrite2Q, .dataReceive,
      .procTLP, .relayUserReadQ0, .relayUserReadQ1, .dataReq])
    (fun state => state.2.handed) [.write userWriteOfSeven, .read userReadOfZero]
    (by
      simp only [mkPcieCtrl, mkMergeN_eight]
      decide +kernel)
  exact ⟨state, run, handed, (user_order default).2 state run⟩

end BluespecPcie

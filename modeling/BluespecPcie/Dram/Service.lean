import BluespecPcie.Dram.Controller

/-! Requests are served in call order: what reads return depends on the accepted calls only.

The history keeps the rows as they are once every accepted write is stored, and the values
the accepted reads must return; the queues of both clock domains lie in between.
-/

namespace BluespecPcie

open Bluespec

-----------------------------------------------------------------------------------------
-- Commands and the requests they make
-----------------------------------------------------------------------------------------

/-- The requests of a write, one for each row it touches. -/
def DRAMWrRequest.requests (v : DRAMWrRequest) : List DDRRequest :=
  if firstNbytes v.addr < v.nBytes then [v.firstRow, v.nextRow] else [v.firstRow]

/-- The requests of a read, one for each row it touches. -/
def DRAMRdRequest.requests (v : DRAMRdRequest) : List DDRRequest :=
  if v.nBytes > firstNbytes v.addr then [v.firstRow, v.nextRow] else [v.firstRow]

/-- The entries of `readOffsetQ` for a read. -/
def DRAMRdRequest.offsets (v : DRAMRdRequest) : List (Bool × BitVec 6) :=
  if v.nBytes > firstNbytes v.addr
    then [(true, v.addr.extractLsb 5 0), (false, v.addr.extractLsb 5 0)]
    else [(false, v.addr.extractLsb 5 0)]

/-- An accepted call that the drivers have not finished. -/
inductive DramCommand where
  | write (v : DRAMWrRequest)
  | read (v : DRAMRdRequest)
deriving DecidableEq

namespace DramCommand

/-- The entry of `nextCmdTypeQ`. -/
def isRead : DramCommand → Bool
  | write _ => false
  | read _ => true

/-- The entry of `dramWrCmdQ`, if there is one. -/
def write? : DramCommand → Option DRAMWrRequest
  | write v => some v
  | read _ => none

/-- The entry of `dramRdCmdQ`, if there is one. -/
def read? : DramCommand → Option DRAMRdRequest
  | write _ => none
  | read v => some v

def requests : DramCommand → List DDRRequest
  | write v => v.requests
  | read v => v.requests

def offsets : DramCommand → List (Bool × BitVec 6)
  | write _ => []
  | read v => v.offsets

end DramCommand

/-- What the drivers will still put into `reqs` and `readOffsetQ` for the queued commands;
the first request of the oldest one may already be issued.
-/
inductive Remaining : Bool → Bool → List DramCommand → List DDRRequest
    → List (Bool × BitVec 6) → Prop
  | fresh (cmds : List DramCommand)
    : Remaining false false cmds (cmds.flatMap (·.requests)) (cmds.flatMap (·.offsets))
  | write (v : DRAMWrRequest) (cmds : List DramCommand)
    : Remaining true false (.write v :: cmds) (v.nextRow :: cmds.flatMap (·.requests))
        (cmds.flatMap (·.offsets))
  | read (v : DRAMRdRequest) (cmds : List DramCommand)
    : Remaining false true (.read v :: cmds) (v.nextRow :: cmds.flatMap (·.requests))
        ((false, v.addr.extractLsb 5 0) :: cmds.flatMap (·.offsets))

/-- A further command adds its requests and entries behind those of the others. -/
theorem Remaining.snoc {nextRowW nextRowR : Bool} {cmds : List DramCommand}
    {todo : List DDRRequest} {offsets : List (Bool × BitVec 6)}
    (remaining : Remaining nextRowW nextRowR cmds todo offsets) (c : DramCommand)
    : Remaining nextRowW nextRowR (cmds ++ [c]) (todo ++ c.requests)
        (offsets ++ c.offsets) := by
  cases remaining with
  | fresh cmds =>
      have longer := Remaining.fresh (cmds ++ [c])
      simpa using longer
  | write v cmds =>
      have longer := Remaining.write v (cmds ++ [c])
      simpa using longer
  | read v cmds =>
      have longer := Remaining.read v (cmds ++ [c])
      simpa using longer

/-- Without commands the drivers have nothing to put. -/
theorem Remaining.of_nil {nextRowW nextRowR : Bool} {todo : List DDRRequest}
    {offsets : List (Bool × BitVec 6)}
    (remaining : Remaining nextRowW nextRowR [] todo offsets)
    : todo = [] ∧ offsets = [] := by
  cases remaining with
  | fresh => exact ⟨rfl, rfl⟩

/-- While a write is the oldest command, its requests come next. -/
theorem Remaining.of_write {nextRowW nextRowR : Bool} {v : DRAMWrRequest}
    {rest : List DramCommand} {todo : List DDRRequest} {offsets : List (Bool × BitVec 6)}
    (remaining : Remaining nextRowW nextRowR (.write v :: rest) todo offsets)
    : nextRowR = false
      ∧ todo = (if nextRowW then [v.nextRow] else v.requests) ++ rest.flatMap (·.requests)
      ∧ offsets = rest.flatMap (·.offsets) := by
  cases remaining with
  | fresh => exact ⟨rfl, rfl, rfl⟩
  | write => exact ⟨rfl, rfl, rfl⟩

/-- While a read is the oldest command, its requests and entries come next. -/
theorem Remaining.of_read {nextRowW nextRowR : Bool} {v : DRAMRdRequest}
    {rest : List DramCommand} {todo : List DDRRequest} {offsets : List (Bool × BitVec 6)}
    (remaining : Remaining nextRowW nextRowR (.read v :: rest) todo offsets)
    : nextRowW = false
      ∧ todo = (if nextRowR then [v.nextRow] else v.requests) ++ rest.flatMap (·.requests)
      ∧ offsets = (if nextRowR then [(false, v.addr.extractLsb 5 0)] else v.offsets)
          ++ rest.flatMap (·.offsets) := by
  cases remaining with
  | fresh => exact ⟨rfl, rfl, rfl⟩
  | read => exact ⟨rfl, rfl, rfl⟩

-----------------------------------------------------------------------------------------
-- Serving requests, and collecting responses
-----------------------------------------------------------------------------------------

/-- The rows after a list of requests, and the responses to its reads. -/
def serveAll (rows : Rows) : List DDRRequest → Rows × List (BitVec 512)
  | [] => (rows, [])
  | r :: rest =>
      ((serveAll (r.apply rows) rest).1,
        (r.response rows).toList ++ (serveAll (r.apply rows) rest).2)

/-- Serving two lists is serving the second after the first. -/
theorem serveAll_append (rows : Rows) (first second : List DDRRequest)
    : serveAll rows (first ++ second)
      = ((serveAll (serveAll rows first).1 second).1,
          (serveAll rows first).2 ++ (serveAll (serveAll rows first).1 second).2) := by
  induction first generalizing rows with
  | nil => simp [serveAll]
  | cons r rest ih => simp [serveAll, ih]

/-- Requests that enable a byte get no response. -/
theorem serveAll_writes (rows : Rows) (requests : List DDRRequest)
    (writes : ∀ r ∈ requests, r.writeen ≠ 0#64)
    : (serveAll rows requests).2 = [] := by
  induction requests generalizing rows with
  | nil => rfl
  | cons r rest ih =>
      have first := writes r List.mem_cons_self
      simp [serveAll, DDRRequest.response, first,
        ih _ (fun r member => writes r (List.mem_cons_of_mem _ member))]

/-- What `recvRead` makes of responses and their `readOffsetQ` entries: the cache register
after them, and the values that leave the shifter.
-/
def collect (readCache : BitVec 512)
    : List (BitVec 512) → List (Bool × BitVec 6) → BitVec 512 × List (BitVec 1024)
  | res :: rows, (true, _) :: offsets => collect res rows offsets
  | res :: rows, (false, offset) :: offsets =>
      ((collect readCache rows offsets).1,
        CombinationalRightShifter.shifted
            (DRAMController.rotateInput readCache res offset) offset
          :: (collect readCache rows offsets).2)
  | _, _ => (readCache, [])

/-- Collecting two lists of responses is collecting the second after the first. -/
theorem collect_append (readCache : BitVec 512) {rows : List (BitVec 512)}
    {offsets : List (Bool × BitVec 6)} (paired : rows.length = offsets.length)
    (rows' : List (BitVec 512)) (offsets' : List (Bool × BitVec 6))
    : collect readCache (rows ++ rows') (offsets ++ offsets')
      = ((collect (collect readCache rows offsets).1 rows' offsets').1,
          (collect readCache rows offsets).2
            ++ (collect (collect readCache rows offsets).1 rows' offsets').2) := by
  induction rows generalizing readCache offsets with
  | nil =>
      obtain rfl := List.length_eq_zero_iff.mp paired.symm
      simp [collect]
  | cons res rows ih =>
      cases offsets with
      | nil => simp at paired
      | cons entry offsets =>
          have shorter : rows.length = offsets.length := by simpa using paired
          obtain ⟨cache, offset⟩ := entry
          cases cache with
          | true => simpa [collect] using ih res shorter
          | false => simp [collect, ih readCache shorter]

/-- A read gets one response for each of its entries. -/
theorem DRAMRdRequest.length_responses (v : DRAMRdRequest) (rows : Rows)
    : (serveAll rows v.requests).2.length = v.offsets.length := by
  unfold requests offsets
  split <;> simp [serveAll, DDRRequest.response, firstRow, nextRow]

/-- A read stores nothing. -/
theorem DRAMRdRequest.serveAll_rows (v : DRAMRdRequest) (rows : Rows)
    : (serveAll rows v.requests).1 = rows := by
  unfold requests
  split <;> simp [serveAll, DDRRequest.apply, firstRow, nextRow]

-----------------------------------------------------------------------------------------
-- History and invariant
-----------------------------------------------------------------------------------------

/-- The rows with every accepted write stored, the cache register with every accepted read
served, the values those reads must return, and the values returned.
-/
structure DramLog where
  rows : Rows
  cache : BitVec 512
  expected : List (BitVec 512)
  returned : List (BitVec 512)

/-- How an event extends the history; `s` is the state before it. -/
def DramLog.record (s : DramSystem) (e : DramEvent) (log : DramLog) : DramLog :=
  match e with
  | .write addr data bytes =>
      { log with rows := (serveAll log.rows (writeCommand addr data bytes).requests).1 }
  | .readReq addr bytes =>
      let v := readCommand addr bytes
      let (cache, values) := collect log.cache (serveAll log.rows v.requests).2 v.offsets
      { log with cache, expected := log.expected ++ values.map DRAMController.lowRow }
  | .read =>
      { log with returned := log.returned ++ (s.ctl.read.map Prod.fst).toList }
  | _ => log

/-- Every request of an accepted write enables a byte. -/
def DramEvent.WritesEnable : DramEvent → Prop
  | .write addr data bytes => ∀ r ∈ (writeCommand addr data bytes).requests, r.writeen ≠ 0#64
  | _ => True

/-- The requests of the call that an event accepts. -/
def DramEvent.requests : DramEvent → List DDRRequest
  | .write addr data bytes => (writeCommand addr data bytes).requests
  | .readReq addr bytes => (readCommand addr bytes).requests
  | _ => []

namespace DramSystem

/-- The request that the DDR3 serves in an event, if it serves one. -/
def serving (s : DramSystem) : DramEvent → Option DDRRequest
  | .serve => s.ddr3.pending.head?
  | _ => none

/-- The requests that the DDR3 has not served: issued ones, then those of the drivers. -/
def unserved (s : DramSystem) (todo : List DDRRequest) : List DDRRequest :=
  s.ddr3.pending ++ s.ctl.reqs.items ++ todo

/-- The rows once the DDR3 has served everything issued and `todo`. -/
def rowsAfter (s : DramSystem) (todo : List DDRRequest) : Rows :=
  (serveAll s.ddr3.rows (s.ddr3.pending ++ s.ctl.reqs.items ++ todo)).1

/-- The responses that `recvRead` will still see, those to `todo` included. -/
def arriving (s : DramSystem) (todo : List DDRRequest) : List (BitVec 512) :=
  s.ctl.respSyncQ.items ++ s.ctl.resps.items ++ s.ddr3.responses
    ++ (serveAll s.ddr3.rows (s.ddr3.pending ++ s.ctl.reqs.items ++ todo)).2

end DramSystem

/-- The queues between the calls and the returned values: the queued commands `cmds`, what
their drivers will still issue, and the values that will leave the shifter.
-/
structure ServedBy (s : DramSystem) (log : DramLog) (cmds : List DramCommand)
    (todo : List DDRRequest) (offsets : List (Bool × BitVec 6))
    (values : List (BitVec 1024)) : Prop where
  types : s.ctl.nextCmdTypeQ.items = cmds.map (·.isRead)
  writes : s.ctl.dramWrCmdQ.items = cmds.filterMap (·.write?)
  reads : s.ctl.dramRdCmdQ.items = cmds.filterMap (·.read?)
  remaining : Remaining s.ctl.nextRowW s.ctl.nextRowR cmds todo offsets
  shifter : s.ctl.rightSft.Paired
  stored : s.rowsAfter todo = log.rows
  paired : (s.arriving todo).length = (s.ctl.readOffsetQ.items ++ offsets).length
  collected : collect s.ctl.readCache (s.arriving todo) (s.ctl.readOffsetQ.items ++ offsets)
    = (log.cache, values)
  expected : log.expected
    = log.returned ++ (s.ctl.rightSft.results ++ values).map DRAMController.lowRow

/-- The accepted reads return what the history expects, as far as they have returned. -/
def Served (s : DramSystem) (log : DramLog) : Prop :=
  ∃ cmds todo offsets values, ServedBy s log cmds todo offsets values

/-- After reset nothing is queued. -/
theorem servedBy_reset (p : DramPowerUp)
    : ServedBy (.reset p) ⟨p.rows, p.readCache, [], []⟩ [] [] [] [] :=
  ⟨rfl, rfl, rfl, .fresh [], rfl, rfl, rfl, rfl, rfl⟩

theorem served_reset (p : DramPowerUp)
    : Served (.reset p) ⟨p.rows, p.readCache, [], []⟩ :=
  ⟨[], [], [], [], servedBy_reset p⟩

/-- The state `s'` behind event `e` is served as well, and the requests in front of the DDR3
have moved on: those of an accepted call joined at the end, a served one left at the front.
-/
def ServedBy.Moves (s : DramSystem) (e : DramEvent) (s' : DramSystem) (log' : DramLog)
    (todo : List DDRRequest) : Prop :=
  ∃ cmds' todo' offsets' values',
    ServedBy s' log' cmds' todo' offsets' values'
      ∧ s.unserved todo ++ e.requests = (s.serving e).toList ++ s'.unserved todo'

/-- The oldest queued command is a write when `nextCmdTypeQ` says so. -/
theorem ServedBy.head_write {s : DramSystem} {log : DramLog} {cmds : List DramCommand}
    {todo : List DDRRequest} {offsets : List (Bool × BitVec 6)} {values : List (BitVec 1024)}
    (served : ServedBy s log cmds todo offsets values) {types : List Bool}
    {v : DRAMWrRequest} {writes : List DRAMWrRequest}
    (type : s.ctl.nextCmdTypeQ.items = false :: types)
    (write : s.ctl.dramWrCmdQ.items = v :: writes)
    : ∃ rest, cmds = .write v :: rest ∧ types = rest.map (·.isRead)
        ∧ writes = rest.filterMap (·.write?)
        ∧ s.ctl.dramRdCmdQ.items = rest.filterMap (·.read?) := by
  have queued := served.types
  have queuedWrites := served.writes
  have queuedReads := served.reads
  rw [type] at queued
  rw [write] at queuedWrites
  cases cmds with
  | nil => cases queued
  | cons c rest =>
      cases c with
      | write w =>
          simp only [List.filterMap_cons, DramCommand.write?, List.cons.injEq] at queuedWrites
          simp only [List.map_cons, DramCommand.isRead, List.cons.injEq, true_and] at queued
          exact ⟨rest, by rw [queuedWrites.1], queued, queuedWrites.2, queuedReads⟩
      | read w => cases queued

/-- The oldest queued command is a read when `nextCmdTypeQ` says so. -/
theorem ServedBy.head_read {s : DramSystem} {log : DramLog} {cmds : List DramCommand}
    {todo : List DDRRequest} {offsets : List (Bool × BitVec 6)} {values : List (BitVec 1024)}
    (served : ServedBy s log cmds todo offsets values) {types : List Bool}
    {v : DRAMRdRequest} {reads : List DRAMRdRequest}
    (type : s.ctl.nextCmdTypeQ.items = true :: types)
    (read : s.ctl.dramRdCmdQ.items = v :: reads)
    : ∃ rest, cmds = .read v :: rest ∧ types = rest.map (·.isRead)
        ∧ s.ctl.dramWrCmdQ.items = rest.filterMap (·.write?)
        ∧ reads = rest.filterMap (·.read?) := by
  have queued := served.types
  have queuedWrites := served.writes
  have queuedReads := served.reads
  rw [type] at queued
  rw [read] at queuedReads
  cases cmds with
  | nil => cases queued
  | cons c rest =>
      cases c with
      | write w => cases queued
      | read w =>
          simp only [List.filterMap_cons, DramCommand.read?, List.cons.injEq] at queuedReads
          simp only [List.map_cons, DramCommand.isRead, List.cons.injEq, true_and] at queued
          exact ⟨rest, by rw [queuedReads.1], queued, queuedWrites, queuedReads.2⟩

/-- The returned values are the first of the expected ones. -/
theorem Served.returned_prefix {s : DramSystem} {log : DramLog} (served : Served s log)
    : log.returned <+: log.expected := by
  obtain ⟨cmds, todo, offsets, values, served⟩ := served
  rw [served.expected]
  exact List.prefix_append ..

-----------------------------------------------------------------------------------------
-- One step
-----------------------------------------------------------------------------------------

section Step

variable {s s' : DramSystem} {log : DramLog} {cmds : List DramCommand}
  {todo : List DDRRequest} {offsets : List (Bool × BitVec 6)} {values : List (BitVec 1024)}

/-- Further requests are served behind those already issued. -/
theorem DramSystem.rowsAfter_append (todo requests : List DDRRequest)
    : s.rowsAfter (todo ++ requests) = (serveAll (s.rowsAfter todo) requests).1 := by
  unfold rowsAfter
  rw [← List.append_assoc (s.ddr3.pending ++ s.ctl.reqs.items), serveAll_append]

/-- The responses to further requests come behind those already awaited. -/
theorem DramSystem.arriving_append (todo requests : List DDRRequest)
    : s.arriving (todo ++ requests)
      = s.arriving todo ++ (serveAll (s.rowsAfter todo) requests).2 := by
  unfold arriving rowsAfter
  rw [← List.append_assoc (s.ddr3.pending ++ s.ctl.reqs.items), serveAll_append]
  simp only [List.append_assoc]

/-- An accepted write joins the queues; it only changes the rows. -/
theorem ServedBy.write {addr : BitVec 64} {data : BitVec 512} {bytes : BitVec 7}
    (served : ServedBy s log cmds todo offsets values)
    (enable : ∀ r ∈ (writeCommand addr data bytes).requests, r.writeen ≠ 0#64)
    (fires : s.step (.write addr data bytes) = some s')
    : ServedBy.Moves s (.write addr data bytes) s' (log.record s (.write addr data bytes))
        todo := by
  simp only [DramSystem.step, DRAMController.write, Option.bind_eq_bind, Option.pure_def,
    Option.map_eq_some_iff, Fifo.bind_enq_eq_some, Option.some.injEq] at fires
  obtain ⟨ctl, ⟨wrQ, _, put, typeQ, _, marked, rfl⟩, rfl⟩ := fires
  have silent := serveAll_writes (s.rowsAfter todo) _ enable
  have remaining := served.remaining.snoc (.write (writeCommand addr data bytes))
  rw [show DramCommand.offsets (.write (writeCommand addr data bytes)) = [] from rfl,
    List.append_nil] at remaining
  have same : s.arriving (todo ++ (writeCommand addr data bytes).requests)
      = s.arriving todo := by
    rw [DramSystem.arriving_append, silent, List.append_nil]
  refine ⟨cmds ++ [.write (writeCommand addr data bytes)],
    todo ++ (writeCommand addr data bytes).requests, offsets, values, ?_,
    List.append_assoc ..⟩
  constructor
  case types => simp [marked, served.types, DramCommand.isRead]
  case writes => simp [put, served.writes, DramCommand.write?]
  case reads => simp [served.reads, DramCommand.read?]
  case remaining => exact remaining
  case shifter => exact served.shifter
  case stored =>
    have stored := DramSystem.rowsAfter_append (s := s) todo
      (writeCommand addr data bytes).requests
    rw [served.stored] at stored
    exact stored
  case paired =>
    have paired := served.paired
    rw [← same] at paired
    exact paired
  case collected =>
    have collected := served.collected
    rw [← same] at collected
    exact collected
  case expected => exact served.expected

/-- An accepted read joins the queues; the values it must return follow the others. -/
theorem ServedBy.readReq {addr : BitVec 64} {bytes : BitVec 7} (served : ServedBy s log cmds todo offsets values)
    (fires : s.step (.readReq addr bytes) = some s')
    : ServedBy.Moves s (.readReq addr bytes) s' (log.record s (.readReq addr bytes))
        todo := by
  simp only [DramSystem.step, DRAMController.readReq, Option.bind_eq_bind, Option.pure_def,
    Option.map_eq_some_iff, Fifo.bind_enq_eq_some, Option.some.injEq] at fires
  obtain ⟨ctl, ⟨rdQ, _, put, typeQ, _, marked, rfl⟩, rfl⟩ := fires
  let v := readCommand addr bytes
  have rows := DramSystem.rowsAfter_append (s := s) todo v.requests
  have arriving := DramSystem.arriving_append (s := s) todo v.requests
  have responses := v.length_responses log.rows
  rw [served.stored] at rows arriving
  rw [v.serveAll_rows] at rows
  have collected := collect_append s.ctl.readCache served.paired
    (serveAll log.rows v.requests).2 v.offsets
  rw [← arriving, served.collected] at collected
  refine ⟨cmds ++ [.read v], todo ++ v.requests, offsets ++ v.offsets,
    values ++ (collect log.cache (serveAll log.rows v.requests).2 v.offsets).2, ?_,
    List.append_assoc ..⟩
  constructor
  case types => simp [marked, served.types, DramCommand.isRead]
  case writes => simp [served.writes, DramCommand.write?]
  case reads => simp [put, served.reads, DramCommand.read?, v]
  case remaining => exact served.remaining.snoc (.read v)
  case shifter => exact served.shifter
  case stored => exact rows
  case paired =>
    have longer : (s.arriving (todo ++ v.requests)).length
        = (s.ctl.readOffsetQ.items ++ (offsets ++ v.offsets)).length := by
      have paired := served.paired
      rw [arriving]
      simp only [List.length_append] at paired ⊢
      omega
    exact longer
  case collected =>
    rw [List.append_assoc] at collected
    exact collected
  case expected =>
    have longer : log.expected ++ (collect log.cache (serveAll log.rows v.requests).2
          v.offsets).2.map DRAMController.lowRow
        = log.returned ++ (s.ctl.rightSft.results ++ (values ++ (collect log.cache
          (serveAll log.rows v.requests).2 v.offsets).2)).map DRAMController.lowRow := by
      rw [served.expected]
      simp only [List.map_append, List.append_assoc]
    exact longer

/-- A returned value is the oldest that the shifter holds. -/
theorem ServedBy.read (served : ServedBy s log cmds todo offsets values) (fires : s.step .read = some s')
    : ServedBy.Moves s .read s' (log.record s .read) todo := by
  simp only [DramSystem.step, DRAMController.read, Option.bind_eq_bind, Option.pure_def,
    Option.map_eq_some_iff, Option.bind_eq_some_iff, Option.some.injEq] at fires
  obtain ⟨_, ⟨⟨v, rightSft⟩, taken, rfl⟩, rfl⟩ := fires
  obtain ⟨shifter, results⟩ :=
    CombinationalRightShifter.getVal_results served.shifter taken
  refine ⟨cmds, todo, offsets, values, ?_, List.append_nil _⟩
  constructor
  case types => exact served.types
  case writes => exact served.writes
  case reads => exact served.reads
  case remaining => exact served.remaining
  case shifter => exact shifter
  case stored => exact served.stored
  case paired => exact served.paired
  case collected => exact served.collected
  case expected =>
    have returned : s.ctl.read.map Prod.fst = some (DRAMController.lowRow v) := by
      simp only [DRAMController.read, taken, Option.bind_eq_bind, Option.bind_some,
        Option.pure_def, Option.map_some]
    have moved : log.expected = (log.returned ++ (s.ctl.read.map Prod.fst).toList)
        ++ (rightSft.results ++ values).map DRAMController.lowRow := by
      rw [returned, served.expected, results, List.append_assoc]
      rfl
    exact moved

/-- Requests that only move between `reqs`, the DDR3 and the drivers, and responses that only
move between queues, are the same ones; so what reads return is the same.
-/
theorem ServedBy.moved (served : ServedBy s log cmds todo offsets values) {e : DramEvent}
    (noCall : e.requests = []) (notServing : s.serving e = none) (cmds' : List DramCommand)
    (todo' : List DDRRequest) (offsets' : List (Bool × BitVec 6))
    (types : s'.ctl.nextCmdTypeQ.items = cmds'.map (·.isRead))
    (writes : s'.ctl.dramWrCmdQ.items = cmds'.filterMap (·.write?))
    (reads : s'.ctl.dramRdCmdQ.items = cmds'.filterMap (·.read?))
    (remaining : Remaining s'.ctl.nextRowW s'.ctl.nextRowR cmds' todo' offsets')
    (rightSft : s'.ctl.rightSft = s.ctl.rightSft)
    (readCache : s'.ctl.readCache = s.ctl.readCache)
    (rows : s'.ddr3.rows = s.ddr3.rows)
    (requests : s'.ddr3.pending ++ s'.ctl.reqs.items ++ todo'
      = s.ddr3.pending ++ s.ctl.reqs.items ++ todo)
    (responses : s'.ctl.respSyncQ.items ++ s'.ctl.resps.items ++ s'.ddr3.responses
      = s.ctl.respSyncQ.items ++ s.ctl.resps.items ++ s.ddr3.responses)
    (entries : s'.ctl.readOffsetQ.items ++ offsets' = s.ctl.readOffsetQ.items ++ offsets)
    : ServedBy.Moves s e s' log todo := by
  have sameRows : s'.rowsAfter todo' = s.rowsAfter todo := by
    rw [DramSystem.rowsAfter, rows, requests]
    rfl
  have sameArriving : s'.arriving todo' = s.arriving todo := by
    rw [DramSystem.arriving, rows, requests, responses]
    rfl
  refine ⟨cmds', todo', offsets', values, ?_, ?_⟩
  case refine_2 =>
    rw [noCall, notServing, List.append_nil]
    exact requests.symm
  constructor
  case types => exact types
  case writes => exact writes
  case reads => exact reads
  case remaining => exact remaining
  case shifter =>
    rw [rightSft]
    exact served.shifter
  case stored =>
    rw [sameRows]
    exact served.stored
  case paired =>
    rw [sameArriving, entries]
    exact served.paired
  case collected =>
    rw [readCache, sameArriving, entries]
    exact served.collected
  case expected =>
    rw [rightSft]
    exact served.expected

/-- `driverWrie` issues the next request of the oldest command, which is a write. -/
theorem ServedBy.driverWrie
    (served : ServedBy s log cmds todo offsets values)
    (fires : s.step .driverWrie = some s')
    : ServedBy.Moves s .driverWrie s' log todo := by
  simp only [DramSystem.step, DRAMController.driverWrie, Option.bind_eq_bind,
    Option.pure_def, Option.map_eq_some_iff, Fifo.bind_deq_eq_some] at fires
  obtain ⟨ctl, ⟨isRead, typeQ, takenType, v, wrQ, taken, fires⟩, rfl⟩ := fires
  cases isRead with
  | true => cases fires
  | false =>
      obtain ⟨rest, rfl, types, writes, reads⟩ := served.head_write takenType taken
      obtain ⟨noRead, todoEq, offsetsEq⟩ := served.remaining.of_write
      cases next : s.ctl.nextRowW with
      | false =>
          simp only [next, Bool.false_eq_true, if_false, if_true, Fifo.bind_enq_eq_some]
            at fires todoEq
          obtain ⟨reqs, _, put, fires⟩ := fires
          by_cases two : firstNbytes v.addr < v.nBytes
          · -- the first of two rows is issued, and the command stays
            simp only [two, if_true, Option.some.injEq] at fires
            subst fires
            have remaining := Remaining.write v rest
            rw [← offsetsEq] at remaining
            refine served.moved rfl rfl _ (v.nextRow :: rest.flatMap (·.requests)) _
              served.types served.writes served.reads ?_ rfl rfl rfl ?_ rfl rfl
            · rw [noRead]
              exact remaining
            · simp [put, todoEq, DRAMWrRequest.requests, two]
          · simp only [two, if_false, Option.some.injEq] at fires
            subst fires
            refine served.moved rfl rfl rest (rest.flatMap (·.requests)) _
              types writes reads ?_ rfl rfl rfl ?_ rfl rfl
            · rw [noRead, offsetsEq]
              exact .fresh rest
            · simp [put, todoEq, DRAMWrRequest.requests, two]
      | true =>
          simp only [next, Bool.true_eq_false, Bool.false_eq_true, if_false, if_true,
            Fifo.bind_enq_eq_some, Option.some.injEq] at fires todoEq
          obtain ⟨reqs, _, put, rfl⟩ := fires
          refine served.moved rfl rfl rest (rest.flatMap (·.requests)) _
            types writes reads ?_ rfl rfl rfl ?_ rfl rfl
          · rw [noRead, offsetsEq]
            exact .fresh rest
          · simp [put, todoEq]

/-- `driverReadC` issues the next request of the oldest command, which is a read, with its
entry of `readOffsetQ`.
-/
theorem ServedBy.driverReadC
    (served : ServedBy s log cmds todo offsets values)
    (fires : s.step .driverReadC = some s')
    : ServedBy.Moves s .driverReadC s' log todo := by
  simp only [DramSystem.step, DRAMController.driverReadC, Option.bind_eq_bind,
    Option.pure_def, Option.map_eq_some_iff, Fifo.bind_deq_eq_some] at fires
  obtain ⟨ctl, ⟨isRead, typeQ, takenType, v, rdQ, taken, fires⟩, rfl⟩ := fires
  cases isRead with
  | false => cases fires
  | true =>
      obtain ⟨rest, rfl, types, writes, reads⟩ := served.head_read takenType taken
      obtain ⟨noWrite, todoEq, offsetsEq⟩ := served.remaining.of_read
      cases next : s.ctl.nextRowR with
      | false =>
          simp only [next, Bool.true_eq_false, Bool.false_eq_true, if_false, if_true,
            Fifo.bind_enq_eq_some] at fires todoEq offsetsEq
          obtain ⟨reqs, _, put, fires⟩ := fires
          by_cases two : v.nBytes > firstNbytes v.addr
          · -- the first of two rows is issued, and the command stays
            simp only [two, if_true, Fifo.bind_enq_eq_some, Option.some.injEq] at fires
            obtain ⟨entries, _, entered, rfl⟩ := fires
            refine served.moved rfl rfl _ (v.nextRow :: rest.flatMap (·.requests))
              ((false, v.addr.extractLsb 5 0) :: rest.flatMap (·.offsets))
              served.types served.writes served.reads ?_ rfl rfl rfl ?_ rfl ?_
            · rw [noWrite]
              exact .read v rest
            · simp [put, todoEq, DRAMRdRequest.requests, two]
            · simp [entered, offsetsEq, DRAMRdRequest.offsets, two]
          · simp only [two, if_false, Fifo.bind_enq_eq_some, Option.some.injEq] at fires
            obtain ⟨entries, _, entered, rfl⟩ := fires
            refine served.moved rfl rfl rest (rest.flatMap (·.requests)) (rest.flatMap (·.offsets))
              types writes reads ?_ rfl rfl rfl ?_ rfl ?_
            · rw [noWrite]
              exact .fresh rest
            · simp [put, todoEq, DRAMRdRequest.requests, two]
            · simp [entered, offsetsEq, DRAMRdRequest.offsets, two]
      | true =>
          simp only [next, Bool.true_eq_false, if_false, if_true, Fifo.bind_enq_eq_some,
            Option.some.injEq] at fires todoEq offsetsEq
          obtain ⟨reqs, _, put, entries, _, entered, rfl⟩ := fires
          refine served.moved rfl rfl rest (rest.flatMap (·.requests)) (rest.flatMap (·.offsets))
            types writes reads ?_ rfl rfl rfl ?_ rfl ?_
          · rw [noWrite]
            exact .fresh rest
          · simp [put, todoEq]
          · simp [entered, offsetsEq]

/-- Issued requests move to the DDR3 in order. -/
theorem ServedBy.relayReqs
    (served : ServedBy s log cmds todo offsets values)
    (fires : s.step .relayReqs = some s')
    : ServedBy.Moves s .relayReqs s' log todo := by
  simp only [DramSystem.step, DramSystem.relayReqs, Option.bind_eq_bind,
    Option.pure_def] at fires
  split at fires
  next credit =>
    simp only [Fifo.bind_deq_eq_some, Option.some.injEq] at fires
    obtain ⟨req, reqs, taken, rfl⟩ := fires
    refine served.moved rfl rfl _ _ _ served.types served.writes served.reads served.remaining rfl
      rfl rfl ?_ rfl rfl
    simp [taken]
  next => cases fires

/-- Responses move from the DDR3 to `resps` in order. -/
theorem ServedBy.relayResps
    (served : ServedBy s log cmds todo offsets values)
    (fires : s.step .relayResps = some s')
    : ServedBy.Moves s .relayResps s' log todo := by
  simp only [DramSystem.step, DramSystem.relayResps, Option.bind_eq_bind,
    Option.pure_def] at fires
  split at fires
  next => cases fires
  next x responses arrived =>
    simp only [Fifo.bind_enq_eq_some, Option.some.injEq] at fires
    obtain ⟨resps, _, put, rfl⟩ := fires
    refine served.moved rfl rfl _ _ _ served.types served.writes served.reads served.remaining rfl
      rfl rfl rfl ?_ rfl
    simp [put, arrived]

/-- Responses move to the user's clock domain in order. -/
theorem ServedBy.relayResps2
    (served : ServedBy s log cmds todo offsets values)
    (fires : s.step .relayResps2 = some s')
    : ServedBy.Moves s .relayResps2 s' log todo := by
  simp only [DramSystem.step, DRAMController.relayResps2, Option.bind_eq_bind,
    Option.pure_def, Option.map_eq_some_iff, Fifo.bind_deq_eq_some, Fifo.bind_enq_eq_some,
    Option.some.injEq] at fires
  obtain ⟨_, ⟨x, resps, taken, respSyncQ, _, put, rfl⟩, rfl⟩ := fires
  refine served.moved rfl rfl _ _ _ served.types served.writes served.reads served.remaining rfl rfl
    rfl rfl ?_ rfl
  simp [put, taken]

/-- The DDR3 serves its oldest request; witness: serving all requests starts with it. -/
theorem ServedBy.serve
    (served : ServedBy s log cmds todo offsets values)
    (fires : s.step .serve = some s')
    : ServedBy.Moves s .serve s' log todo := by
  simp only [DramSystem.step, Ddr3.serve, Option.map_eq_some_iff] at fires
  obtain ⟨ddr3, fires, rfl⟩ := fires
  split at fires
  next => cases fires
  next r pending oldest =>
    cases fires
    have sameRows : s.rowsAfter todo
        = (serveAll (r.apply s.ddr3.rows) (pending ++ s.ctl.reqs.items ++ todo)).1 := by
      simp [DramSystem.rowsAfter, oldest, serveAll]
    have sameArriving : s.arriving todo
        = s.ctl.respSyncQ.items ++ s.ctl.resps.items
            ++ (s.ddr3.responses ++ (r.response s.ddr3.rows).toList)
          ++ (serveAll (r.apply s.ddr3.rows) (pending ++ s.ctl.reqs.items ++ todo)).2 := by
      simp [DramSystem.arriving, oldest, serveAll]
    refine ⟨cmds, todo, offsets, values, ?_, ?_⟩
    case refine_2 =>
      simp [DramSystem.unserved, DramSystem.serving, DramEvent.requests, oldest]
    constructor
    case types => exact served.types
    case writes => exact served.writes
    case reads => exact served.reads
    case remaining => exact served.remaining
    case shifter => exact served.shifter
    case stored => exact sameRows.symm.trans served.stored
    case paired =>
      have paired := served.paired
      rw [sameArriving] at paired
      exact paired
    case collected =>
      have collected := served.collected
      rw [sameArriving] at collected
      exact collected
    case expected => exact served.expected

/-- `recvRead` takes the oldest response with its entry, as `collect` does. -/
theorem ServedBy.recvRead
    (served : ServedBy s log cmds todo offsets values)
    (fires : s.step .recvRead = some s')
    : ServedBy.Moves s .recvRead s' log todo := by
  simp only [DramSystem.step, DRAMController.recvRead, Option.bind_eq_bind,
    Option.pure_def, Option.map_eq_some_iff, Fifo.bind_deq_eq_some] at fires
  obtain ⟨ctl, ⟨res, respSyncQ, taken, ⟨cache, offset⟩, readOffsetQ, entry, fires⟩, rfl⟩ := fires
  have arriving : s.arriving todo
      = res :: (respSyncQ.items ++ s.ctl.resps.items ++ s.ddr3.responses
        ++ (serveAll s.ddr3.rows (s.ddr3.pending ++ s.ctl.reqs.items ++ todo)).2) := by
    simp [DramSystem.arriving, taken]
  have paired := served.paired
  have collected := served.collected
  rw [arriving, entry] at paired collected
  have shorter := Nat.succ.inj paired
  cases cache with
  | true =>
      simp only [if_true, Option.some.injEq] at fires
      subst fires
      exact ⟨cmds, todo, offsets, values,
        ⟨served.types, served.writes, served.reads, served.remaining, served.shifter,
          served.stored, shorter, collected, served.expected⟩,
        List.append_nil _⟩
  | false =>
      simp only [Bool.false_eq_true, if_false, Option.bind_eq_some_iff,
        Option.some.injEq] at fires
      obtain ⟨rightSft, entered, rfl⟩ := fires
      obtain ⟨shifter, results⟩ :=
        CombinationalRightShifter.rotateByteBy_results served.shifter entered
      simp only [List.cons_append, collect, Prod.mk.injEq] at collected
      obtain ⟨cached, rfl⟩ := collected
      refine ⟨cmds, todo, offsets, _, ⟨served.types, served.writes, served.reads,
        served.remaining, shifter, served.stored, shorter, Prod.ext cached rfl, ?_⟩,
        List.append_nil _⟩
      have expected := served.expected
      rw [← List.singleton_append, ← List.append_assoc s.ctl.rightSft.results, ← results]
        at expected
      exact expected

/-- Every event keeps the history in step with the queues. -/
theorem ServedBy.step {e : DramEvent} (served : ServedBy s log cmds todo offsets values)
    (enable : e.WritesEnable) (fires : s.step e = some s')
    : ServedBy.Moves s e s' (log.record s e) todo := by
  cases e with
  | write addr data bytes => exact served.write enable fires
  | readReq addr bytes => exact served.readReq fires
  | read => exact served.read fires
  | driverWrie => exact served.driverWrie fires
  | driverReadC => exact served.driverReadC fires
  | recvRead => exact served.recvRead fires
  | relayReqs => exact served.relayReqs fires
  | relayResps => exact served.relayResps fires
  | relayResps2 => exact served.relayResps2 fires
  | serve => exact served.serve fires

/-- Every event keeps a state served. -/
theorem Served.step {e : DramEvent} (served : Served s log) (enable : e.WritesEnable)
    (fires : s.step e = some s')
    : Served s' (log.record s e) := by
  obtain ⟨cmds, todo, offsets, values, served⟩ := served
  obtain ⟨cmds', todo', offsets', values', served', _⟩ := served.step enable fires
  exact ⟨cmds', todo', offsets', values', served'⟩

end Step

end BluespecPcie

import BluespecPcie.Bluespec.Streams
import BluespecPcie.Dram.BurstSplitter

/-! What clients ask of `mkDRAMBurstSplitter`, and what its runs have to keep. -/

namespace BluespecPcie

open Bluespec

-----------------------------------------------------------------------------------------
-- Bursts
-----------------------------------------------------------------------------------------

/-- Address of word `j` of a burst. -/
def burstAddr (addr : BitVec 64) (j : Nat) : BitVec 64 := addr + BitVec.ofNat 64 (64 * j)

/-- The addresses of a burst. -/
def burstAddrs (addr : BitVec 64) (n : Nat) : List (BitVec 64) :=
  (List.range n).map (burstAddr addr)

def BurstReq.addrs (r : BurstReq) : List (BitVec 64) := burstAddrs r.addr r.words.toNat

/-- The client of each word that a request asks for. -/
def BurstReq.clients (r : BurstReq) : List (BitVec 8) := List.replicate r.words.toNat r.idx

/-- A write burst that was accepted, with the words its client has supplied for it. -/
structure ClientWrite where
  client : Nat
  addr : BitVec 64
  words : BitVec 32
  data : List (BitVec 512)
deriving DecidableEq

namespace ClientWrite

def req (b : ClientWrite) : BurstReq := ⟨b.addr, b.words, BitVec.ofNat 8 b.client⟩

/-- Its words at consecutive addresses. -/
def stores (b : ClientWrite) : List (BitVec 64 × BitVec 512) :=
  Stores.placed (burstAddr b.addr) b.data

/-- A word is one of the last burst of its client. -/
def supply (i : Nat) (word : BitVec 512) : List ClientWrite → List ClientWrite
  | [] => []
  | b :: bursts =>
      if b.client = i ∧ ∀ later ∈ bursts, later.client ≠ i then
        { b with data := b.data ++ [word] } :: bursts
      else b :: supply i word bursts

end ClientWrite

/-- A read burst that was accepted. -/
structure ClientRead where
  client : Nat
  addr : BitVec 64
  words : BitVec 32

def ClientRead.req (b : ClientRead) : BurstReq := ⟨b.addr, b.words, BitVec.ofNat 8 b.client⟩

-----------------------------------------------------------------------------------------
-- Calls of the DRAM
-----------------------------------------------------------------------------------------

/-- The words written, each with its address. -/
def writeCalls (calls : List DramCall) : List (BitVec 64 × BitVec 512) :=
  calls.filterMap (fun
    | .write addr word => some (addr, word)
    | .readReq _ => none)

/-- The words read by calls behind `before`, each with its address. -/
def readWords (answer : List DramCall → BitVec 64 → BitVec 512) (before : List DramCall)
    : List DramCall → List (BitVec 64 × BitVec 512)
  | [] => []
  | .write addr word :: calls => readWords answer (before ++ [.write addr word]) calls
  | .readReq addr :: calls =>
      (addr, answer before addr) :: readWords answer (before ++ [.readReq addr]) calls

theorem writeCalls_write (calls : List DramCall) (addr : BitVec 64) (word : BitVec 512)
    : writeCalls (calls ++ [.write addr word]) = writeCalls calls ++ [(addr, word)] := by
  simp [writeCalls]

theorem writeCalls_readReq (calls : List DramCall) (addr : BitVec 64)
    : writeCalls (calls ++ [.readReq addr]) = writeCalls calls := by
  simp [writeCalls]

/-- A write leaves the words read before; induction on the calls. -/
theorem readWords_write (answer : List DramCall → BitVec 64 → BitVec 512)
    (before calls : List DramCall) (addr : BitVec 64) (word : BitVec 512)
    : readWords answer before (calls ++ [.write addr word]) = readWords answer before calls := by
  induction calls generalizing before with
  | nil => rfl
  | cons c calls ih =>
      cases c with
      | write a w => exact ih _
      | readReq a =>
          rw [List.cons_append, readWords, ih]
          rfl

/-- A read is answered behind the calls before it; induction on the calls. -/
theorem readWords_readReq (answer : List DramCall → BitVec 64 → BitVec 512)
    (before calls : List DramCall) (addr : BitVec 64)
    : readWords answer before (calls ++ [.readReq addr])
      = readWords answer before calls ++ [(addr, answer (before ++ calls) addr)] := by
  induction calls generalizing before with
  | nil =>
      rw [List.append_nil]
      rfl
  | cons c calls ih =>
      cases c with
      | write a w =>
          rw [List.cons_append, readWords, ih, List.append_assoc]
          rfl
      | readReq a =>
          rw [List.cons_append, readWords, ih, List.append_assoc]
          rfl

-----------------------------------------------------------------------------------------
-- History
-----------------------------------------------------------------------------------------

/-- A burst that is accepted, a word that is supplied, or a call of the DRAM. -/
inductive SplitterEntry where
  | writeReq (i : Nat) (addr : BitVec 64) (words : BitVec 32)
  | readReq (i : Nat) (addr : BitVec 64) (words : BitVec 32)
  | write (i : Nat) (word : BitVec 512)
  | call (c : DramCall)
deriving DecidableEq

/-- The call of the DRAM that an entry is. -/
def SplitterEntry.call? : SplitterEntry → Option DramCall
  | .call c => some c
  | _ => none

/-- The calls of the DRAM in a history. -/
def callsOf (history : List SplitterEntry) : List DramCall :=
  history.filterMap SplitterEntry.call?

/-- The write bursts behind an entry, when those before it are `bursts`. -/
def ClientWrite.extend (bursts : List ClientWrite) : SplitterEntry → List ClientWrite
  | .writeReq i addr words => bursts ++ [⟨i, addr, words, []⟩]
  | .write i word => supply i word bursts
  | .readReq _ _ _ | .call _ => bursts

/-- The write bursts accepted in a history, with the words supplied for them. -/
def accepted (history : List SplitterEntry) : List ClientWrite :=
  history.foldl ClientWrite.extend []

/-- What happened in the order in which it did; the bursts, how many write requests with words
have left `mWriter`, and the words each reader got.
-/
structure SplitterLog where
  history : List SplitterEntry := []
  writes : List ClientWrite := []
  reads : List ClientRead := []
  relayed : Nat := 0
  received : Nat → List (BitVec 512) := fun _ => []

/-- The calls of the DRAM that an event makes. -/
def newCalls (rcnt wcnt : Nat) (answer : List DramCall → BitVec 64 → BitVec 512)
    (m : DRAMBurstSplitter) (e : SplitterEvent) : List DramCall :=
  match m.step rcnt wcnt answer e with
  | none => []
  | some m' => m'.ctl.dram.calls.drop m.ctl.dram.calls.length

namespace SplitterLog

/-- How an event extends the history. -/
def record (rcnt wcnt : Nat) (answer : List DramCall → BitVec 64 → BitVec 512)
    (m : DRAMBurstSplitter) (e : SplitterEvent) (log : SplitterLog) : SplitterLog :=
  match e with
  | .readReq i addr words =>
      { log with
        history := log.history ++ [.readReq i addr words]
        reads := log.reads ++ [⟨i, addr, words⟩] }
  | .writeReq i addr words =>
      { log with
        history := log.history ++ [.writeReq i addr words]
        writes := log.writes ++ [⟨i, addr, words, []⟩] }
  | .write i word =>
      { log with
        history := log.history ++ [.write i word]
        writes := ClientWrite.supply i word log.writes }
  | .read i =>
      { log with
        received := Function.update log.received i
          (log.received i ++ ((m.read i).map Prod.fst).toList) }
  | .rule .relayDramWrite =>
      match m.mWriter.deq with
      | some (r, _) => { log with relayed := log.relayed + if 0 < r.words then 1 else 0 }
      | none => log
  | .rule rule =>
      { log with
        history := log.history ++ (newCalls rcnt wcnt answer m (.rule rule)).map .call }

/-- The write requests with words, as they were accepted. -/
def requests (log : SplitterLog) : List BurstReq :=
  (log.writes.map ClientWrite.req).filter (fun r => 0 < r.words)

-----------------------------------------------------------------------------------------
-- Clients
-----------------------------------------------------------------------------------------

/-- A writer supplies exactly the words of a burst, before it requests the next. -/
def Follows (log : SplitterLog) : SplitterEvent → Prop
  | .writeReq i _ _ => ∀ b ∈ log.writes, b.client = i → b.data.length = b.words.toNat
  | .write i _ => ∃ b ∈ log.writes, b.client = i ∧ b.data.length < b.words.toNat
  | _ => True

instance decidableFollows (log : SplitterLog) (e : SplitterEvent) : Decidable (log.Follows e) := by
  unfold Follows
  split <;> infer_instance

-----------------------------------------------------------------------------------------
-- What is to be kept
-----------------------------------------------------------------------------------------

/-- The calls have stored write bursts: these are complete, their words went to the DRAM one
burst behind the other as they were accepted, to the addresses of the bursts one behind the
other as they were started.
-/
structure AllStored (bursts : List ClientWrite) (calls : List DramCall) : Prop where
  complete : ∀ b ∈ bursts, b.data.length = b.words.toNat
  words : (writeCalls calls).map Prod.snd = bursts.flatMap ClientWrite.data
  addrs
    : ∃ order : List BurstReq,
        order.Perm (bursts.map ClientWrite.req)
        ∧ (writeCalls calls).map Prod.fst = order.flatMap BurstReq.addrs

/-- When a read goes to the DRAM, the calls before it have stored the write bursts accepted so
far.
-/
def Ordered (log : SplitterLog) : Prop :=
  ∀ before addr after,
    log.history = before ++ .call (.readReq addr) :: after
    → AllStored (accepted before) (callsOf before)

/-- Each reader got, in their order, words that the DRAM returned for its own bursts. -/
def Delivered (log : SplitterLog) (rcnt : Nat) (answer : List DramCall → BitVec 64 → BitVec 512)
    (calls : List DramCall) : Prop :=
  (readWords answer [] calls).map Prod.fst <+: log.reads.flatMap (fun b => b.req.addrs)
  ∧ ∀ i < rcnt,
      log.received i
        <+: withLabel (BitVec.ofNat 8 i)
          ((log.reads.flatMap (fun b => b.req.clients)).zip
            ((readWords answer [] calls).map Prod.snd))

/-- The words written are those of the bursts, each burst's own at its own addresses, in some
order of the bursts that is the one accepted for each client.
-/
def Stored (log : SplitterLog) (calls : List DramCall) : Prop :=
  ∃ order : List ClientWrite,
    (∀ i, order.filter (fun b => b.client = i) = log.writes.filter (fun b => b.client = i))
    ∧ writeCalls calls <+: order.flatMap ClientWrite.stores

end SplitterLog

end BluespecPcie

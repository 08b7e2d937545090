import BluespecPcie.Bluespec.Fifo

/-! Dual-ported block RAM behind a request/response server on each port. -/

namespace Bluespec

/-- Responses a BRAM server port may hold before it stops accepting reads. -/
def bramResponses : Nat := 3

/-- A memory with two ports. A read samples the memory when its request is accepted and
its value waits in the port's response queue; a write is done when it is accepted.
-/
structure Bram2 (width : Nat) (α : Type) where
  mem : BitVec width → α
  respA : Fifo α bramResponses
  respB : Fifo α bramResponses

namespace Bram2

variable {width : Nat} {α β : Type}

/-- The memory after reset, with the contents it was loaded with. -/
def init (mem : BitVec width → α) : Bram2 width α := ⟨mem, .empty, .empty⟩

/-- A write request on either port, without response. -/
def write (m : Bram2 width α) (address : BitVec width) (datain : α) : Bram2 width α :=
  { m with mem := Function.update m.mem address datain }

/-- A read request on port A; guarded by room for its response. -/
def readA (m : Bram2 width α) (address : BitVec width) : Option (Bram2 width α) := do
  let respA ← m.respA.enq (m.mem address)
  return { m with respA }

/-- A read request on port B; guarded by room for its response. -/
def readB (m : Bram2 width α) (address : BitVec width) : Option (Bram2 width α) := do
  let respB ← m.respB.enq (m.mem address)
  return { m with respB }

/-- Taking a response from port A. -/
def getA (m : Bram2 width α) : Option (α × Bram2 width α) := do
  let (v, respA) ← m.respA.deq
  return (v, { m with respA })

/-- Taking a response from port B. -/
def getB (m : Bram2 width α) : Option (α × Bram2 width α) := do
  let (v, respB) ← m.respB.deq
  return (v, { m with respB })

@[simp] theorem mem_write (m : Bram2 width α) (address : BitVec width) (datain : α)
    : (m.write address datain).mem = Function.update m.mem address datain := rfl

@[simp] theorem respA_write (m : Bram2 width α) (address : BitVec width) (datain : α)
    : (m.write address datain).respA = m.respA := rfl

@[simp] theorem respB_write (m : Bram2 width α) (address : BitVec width) (datain : α)
    : (m.write address datain).respB = m.respB := rfl

/-- An action that starts with a read on port A: the addressed value is queued. -/
theorem bind_readA_eq_some {m : Bram2 width α} {address : BitVec width}
    {f : Bram2 width α → Option β} {b : β}
    : (m.readA address).bind f = some b
      ↔ ∃ respA, m.respA.items.length < bramResponses
          ∧ respA.items = m.respA.items ++ [m.mem address]
          ∧ f { m with respA } = some b := by
  simp only [readA, Option.bind_eq_bind, Option.pure_def, Option.bind_assoc,
    Fifo.bind_enq_eq_some, Option.bind_some]

/-- An action that starts with a read on port B: the addressed value is queued. -/
theorem bind_readB_eq_some {m : Bram2 width α} {address : BitVec width}
    {f : Bram2 width α → Option β} {b : β}
    : (m.readB address).bind f = some b
      ↔ ∃ respB, m.respB.items.length < bramResponses
          ∧ respB.items = m.respB.items ++ [m.mem address]
          ∧ f { m with respB } = some b := by
  simp only [readB, Option.bind_eq_bind, Option.pure_def, Option.bind_assoc,
    Fifo.bind_enq_eq_some, Option.bind_some]

/-- An action that starts with taking a response from port A, the oldest one. -/
theorem bind_getA_eq_some {m : Bram2 width α} {f : α × Bram2 width α → Option β} {b : β}
    : m.getA.bind f = some b
      ↔ ∃ v respA, m.respA.items = v :: respA.items ∧ f (v, { m with respA }) = some b := by
  simp only [getA, Option.bind_eq_bind, Option.pure_def, Option.bind_assoc,
    Fifo.bind_deq_eq_some, Option.bind_some]

/-- An action that starts with taking a response from port B, the oldest one. -/
theorem bind_getB_eq_some {m : Bram2 width α} {f : α × Bram2 width α → Option β} {b : β}
    : m.getB.bind f = some b
      ↔ ∃ v respB, m.respB.items = v :: respB.items ∧ f (v, { m with respB }) = some b := by
  simp only [getB, Option.bind_eq_bind, Option.pure_def, Option.bind_assoc,
    Fifo.bind_deq_eq_some, Option.bind_some]

end Bram2

end Bluespec

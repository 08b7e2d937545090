import BluespecPcie.Host.Bdbmpcie
import BluespecPcie.Host.Link

/-! The TLPs of the host in flight, from the link to where the device acts on them. -/

namespace BluespecPcie

open Bluespec

/-- The requests a device has not acted on, oldest first. -/
def RequestView.flight (v : RequestView) : List (BitVec 128) := v.tlp3Q ++ v.tlp2Q ++ v.tlpQ

/-- What a step does to the TLPs in flight, the user writes queued behind them, and the count
of those delivered.
-/
inductive FlightStep (flight : List (BitVec 128)) (queued : Nat) (emit : BitVec 32)
    : List (BitVec 128) → Nat → BitVec 32 → Prop
  | same : FlightStep flight queued emit flight queued emit
  | answered {before after : List (BitVec 128)} {tlp : BitVec 128}
    (split : flight = before ++ tlp :: after) (read : isRead (tlpType tlp) = true)
    : FlightStep flight queued emit (before ++ after) queued emit
  | reset {tlp : BitVec 128} {rest : List (BitVec 128)} (head : flight = tlp :: rest)
    (reset : isReset tlp = true)
    : FlightStep flight queued emit rest queued 0
  | config {tlp : BitVec 128} {rest : List (BitVec 128)} (head : flight = tlp :: rest)
    (notUser : isUserWrite tlp = false)
    : FlightStep flight queued emit rest queued emit
  | user {tlp : BitVec 128} {rest : List (BitVec 128)} (head : flight = tlp :: rest)
    (user : isUserWrite tlp = true)
    : FlightStep flight queued emit rest (queued + 1) emit
  | deliver {left : Nat} (queue : queued = left + 1)
    : FlightStep flight queued emit flight left (emit + 1)

/-- A write that takes effect. -/
theorem RequestView.write_flight {v : RequestView} {tlp : BitVec 128}
    {rest wire : List (BitVec 128)} (head : v.tlp3Q = tlp :: rest)
    (write : isWrite (tlpType tlp) = true)
    : FlightStep (v.flight ++ wire) v.userWrites.length v.userWriteEmit
        (({ v with tlp3Q := rest }.write tlp).flight ++ wire)
        ({ v with tlp3Q := rest }.write tlp).userWrites.length
        ({ v with tlp3Q := rest }.write tlp).userWriteEmit := by
  have split : v.flight ++ wire = tlp :: (rest ++ v.tlp2Q ++ v.tlpQ ++ wire) := by
    rw [RequestView.flight, head]
    rfl
  rw [RequestView.write]
  by_cases reset : internalAddr tlp = 0
  · rw [if_pos reset]
    exact .reset split (by simp [isReset, write, reset])
  · rw [if_neg reset]
    by_cases config : internalAddr tlp < io_userspace_offset
    · rw [if_pos config]
      exact .config split (by simp [isUserWrite, config])
    · rw [if_neg config]
      have user : isUserWrite tlp = true := by simp [isUserWrite, write, config]
      have moved : FlightStep (v.flight ++ wire) v.userWrites.length v.userWriteEmit
          (rest ++ v.tlp2Q ++ v.tlpQ ++ wire) (v.userWrites.length + 1) v.userWriteEmit :=
        .user split user
      simpa only [RequestView.flight, List.length_append, List.length_singleton] using moved

/-- Every request step does one of these to the TLPs in flight, on the link behind the device
as well.
-/
theorem RequestStep.flight {v v' : RequestView} {offer : Option (TlpSource × SendTLP)}
    {call : RequestCall} (placed : v.Placed) (moves : RequestStep v v' offer call)
    (wire : List (BitVec 128))
    : FlightStep (v.flight ++ (call.accepts ++ wire)) v.userWrites.length v.userWriteEmit
        (v'.flight ++ wire) v'.userWrites.length v'.userWriteEmit := by
  cases moves with
  | idle _ => exact .same
  | @receive tlp _ =>
      have same : v.flight ++ ([tlp] ++ wire)
          = ({ v with tlpQ := v.tlpQ ++ [tlp] } : RequestView).flight ++ wire := by
        simp [RequestView.flight]
      rw [RequestCall.accepts, same]
      exact .same
  | @status tlp rest b head source _ _ _ =>
      have split : v.flight ++ wire = v.tlp3Q ++ v.tlp2Q ++ tlp :: (rest ++ wire) := by
        simp [RequestView.flight, head]
      have moved : FlightStep (v.flight ++ wire) v.userWrites.length v.userWriteEmit _ _ _ :=
        .answered split (isRead_of_source source (by decide))
      simpa [RequestCall.accepts, RequestView.flight] using moved
  | @pass tlp rest head _ =>
      have same : v.flight
          = ({ v with tlpQ := rest, tlp2Q := v.tlp2Q ++ [tlp] } : RequestView).flight := by
        simp [RequestView.flight, head]
      change FlightStep (v.flight ++ wire) _ _ _ _ _
      rw [same]
      exact .same
  | @configRead tlp rest head source =>
      have split : v.flight ++ wire = v.tlp3Q ++ tlp :: (rest ++ v.tlpQ ++ wire) := by
        simp [RequestView.flight, head]
      have moved : FlightStep (v.flight ++ wire) v.userWrites.length v.userWriteEmit _ _ _ :=
        .answered split (isRead_of_source source (by decide))
      simpa [RequestCall.accepts, RequestView.flight] using moved
  | @userRead tlp rest head source =>
      have split : v.flight ++ wire = v.tlp3Q ++ tlp :: (rest ++ v.tlpQ ++ wire) := by
        simp [RequestView.flight, head]
      have moved : FlightStep (v.flight ++ wire) v.userWrites.length v.userWriteEmit _ _ _ :=
        .answered split (isRead_of_source source (by decide))
      simpa [RequestCall.accepts, RequestView.flight] using moved
  | @write tlp rest head _ =>
      have same : v.flight
          = ({ v with tlp2Q := rest, tlp3Q := v.tlp3Q ++ [tlp] } : RequestView).flight := by
        simp [RequestView.flight, head]
      change FlightStep (v.flight ++ wire) _ _ _ _ _
      rw [same]
      exact .same
  | config _ _ _ _ => exact .same
  | @ioWrite tlp rest b head _ _ =>
      exact RequestView.write_flight head (placed.inTlp3Q tlp (by simp [head]))
  | @posted tlp rest head _ =>
      exact RequestView.write_flight head (placed.inTlp3Q tlp (by simp [head]))
  | dataReq _ => exact .same
  | dataSend _ => exact .same
  | @dataReceive w rest head =>
      rw [head]
      exact .deliver rfl

/-- The user's queues as `RequestView` has them. -/
theorem PcieCtrl.queuedWrites_eq (d : PcieCtrl)
    : d.queuedWrites = d.requests.userWrites.length := by
  simp only [PcieCtrl.queuedWrites, PcieCtrl.requests, List.length_append]
  omega

end BluespecPcie

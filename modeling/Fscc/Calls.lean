import Fscc.Registers

/-!
# The calls of a port

`fscc_read`, `fscc_write` and `fscc_poll` of `main.c`, step by step. A step is what a call
does between two points at which another party can act; what it finds out there comes as an
`Observation`, and what it does to its semaphore is a `SemaphoreOp`.
-/

namespace Fscc

/-- Where a call is. -/
inductive Phase where
  | entry
  | down
  | check
  | released
  | wait
  | sleep
  | clock
  | act
  | leave (result : Except Errno Nat)
  | finish (result : Except Errno Nat)
  | done (result : Except Errno Nat)
deriving DecidableEq, Repr

/-- What a call finds out in a step: nothing, a pending signal, the value of a condition, or
the result of the work it came for. -/
inductive Observation where
  | go
  | interrupted
  | condition (holds : Bool)
  | result (result : Except Errno Nat)
deriving DecidableEq, Repr

inductive SemaphoreOp where
  | keep
  | down
  | up
deriving DecidableEq, Repr

/-- The loop of `fscc_read` and `fscc_write` around `wait_event_interruptible`: it ends at
`found`, with the semaphore taken and its condition seen to hold. -/
def waitLoop (nonblock : Bool) (found : Phase) : Phase → Observation → Option (Phase × SemaphoreOp)
  | .down, .interrupted => some (.done (.error .erestartsys), .keep)
  | .down, .go => some (.check, .down)
  | .check, .condition holds => some (if holds then (found, .keep) else (.released, .up))
  | .released, .go => some (if nonblock then .done (.error .eagain) else .wait, .keep)
  -- The condition is evaluated on the queue, so a wake-up from here on is not missed.
  | .wait, .condition holds => some (if holds then .down else .sleep, .keep)
  | .sleep, .interrupted => some (.done (.error .erestartsys), .keep)
  | .sleep, .go => some (.wait, .keep)
  | _, _ => none

/-- `fscc_write` up to its first `down`. -/
def writeEntry (mem : Memory) (count : Nat) (usingAsync : Bool) : Phase :=
  if count = 0 then .done (.ok count)
  else if usingAsync then .done (.error .eopnotsupp)
  else if mem.txSize * mem.txNum < count then .done (.error .enobufs)
  else .down

/-- `fscc_write`. At `clock` the condition is the one under which it gives up. -/
def writeNext (mem : Memory) (count : Nat) (nonblock : Bool) :
    Phase → Observation → Option (Phase × SemaphoreOp)
  | .entry, .condition usingAsync => some (writeEntry mem count usingAsync, .keep)
  -- This return leaves the semaphore down.
  | .clock, .condition stalled => some (if stalled then .done (.error .etimedout) else .act, .keep)
  | .act, .result result => some (.leave result, .keep)
  | .leave result, .go => some (.finish result, .up)
  | .finish result, .go => some (.done result, .keep)
  | phase, seen => waitLoop nonblock .clock phase seen

/-- `fscc_read` up to its first `down`. -/
def readEntry (count : Nat) (usingAsync : Bool) : Phase :=
  if count = 0 then .done (.ok count)
  else if usingAsync then .done (.error .eopnotsupp)
  else .down

/-- `fscc_read`. -/
def readNext (count : Nat) (nonblock : Bool) :
    Phase → Observation → Option (Phase × SemaphoreOp)
  | .entry, .condition usingAsync => some (readEntry count usingAsync, .keep)
  | .act, .result result => some (.leave result, .keep)
  | .leave result, .go => some (.done result, .up)
  | phase, seen => waitLoop nonblock .act phase seen

/-- The loop falls asleep only when it has just seen its condition not to hold. -/
theorem waitLoop_sleep {nonblock : Bool} {found phase : Phase} {seen : Observation} {op : SemaphoreOp}
    (next : waitLoop nonblock found phase seen = some (.sleep, op)) (other : found ≠ .sleep) :
    phase = .wait ∧ seen = .condition false := by
  unfold waitLoop at next
  split at next
  next => cases next
  next => cases next
  next holds =>
    -- Where the loop ends it does not sleep.
    cases holds with
    | true => exact absurd (congrArg Prod.fst (Option.some.inj next)) other
    | false => cases next
  next => cases nonblock <;> cases next
  next holds =>
    cases holds with
    | true => cases next
    | false => exact ⟨rfl, rfl⟩
  next => cases next
  next => cases next
  next => cases next

/-- `fscc_poll`, whose `down` no signal interrupts. -/
def pollNext : Phase → Observation → Option (Phase × SemaphoreOp)
  | .entry, .condition _ => some (.down, .keep)
  | .down, .go => some (.act, .down)
  | .act, .result result => some (.leave result, .keep)
  | .leave result, .go => some (.done result, .up)
  | _, _ => none

/-- The mask of `fscc_poll`: `POLLIN | POLLRDNORM` and `POLLOUT | POLLWRNORM`. -/
def pollMask (readReady : Bool) (txSpace : Nat) : Nat :=
  (if readReady then 0x0041 else 0) ||| (if txSpace ≠ 0 then 0x0104 else 0)

/-- Whether a call is between its `down` and its `up`. -/
def Phase.critical : Phase → Bool
  | .check | .clock | .act | .leave _ => true
  | _ => false

/-- What a call has of its semaphore after a step. -/
def SemaphoreOp.holds : SemaphoreOp → Bool → Bool
  | .keep, held => held
  | .down, _ => true
  | .up, _ => false

/-- The semaphore after a step, `none` when the call would have to wait for it. -/
def SemaphoreOp.count : SemaphoreOp → Nat → Option Nat
  | .keep, n => some n
  | .down, 0 => none
  | .down, n + 1 => some n
  | .up, n => some (n + 1)

end Fscc

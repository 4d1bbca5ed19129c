import OhosFfrt.Basic
import OhosFfrt.Lib.Mask

/-!
# `reactor`: the state of a registered descriptor and the sections under its locks

The lock of `events` serializes what changes the readiness and the registration with the loop, that
of `waiters` the lists of wakers; `readiness` is an atomic and is read outside of both.  Each
function here is one section under one lock, or one load.

The results of the calls of `epoll_ctl` are inputs (`Ctl`).  `armed` is what the loop itself has the
descriptor registered for; the code only knows `events`.
-/

namespace OhosFfrt.Reactor.State

open Basic Lib.Mask

/-- A set of epoll events. -/
abbrev Mask := BitVec 32

def epollIn : Mask := 0x001

def epollPri : Mask := 0x002

def epollOut : Mask := 0x004

def epollErr : Mask := 0x008

def epollHup : Mask := 0x010

def errorEvents : Mask := epollErr ||| epollHup

def packReadiness (generation : BitVec 32) (ready : Mask) : BitVec 64 :=
  (generation.setWidth 64 <<< 32) ||| ready.setWidth 64

def unpackReadiness (value : BitVec 64) : BitVec 32 × Mask :=
  ((value >>> 32).setWidth 32, value.setWidth 32)

@[simp] theorem unpack_pack (generation : BitVec 32) (ready : Mask) :
    unpackReadiness (packReadiness generation ready) = (generation, ready) := by
  unfold unpackReadiness packReadiness
  rw [Prod.mk.injEq]
  constructor
  · refine BitVec.eq_of_getLsbD_eq fun j hj => ?_
    have h1 : 32 + j < 64 := by omega
    have h2 : j < 64 := by omega
    simp [hj, h1, h2]
  · refine BitVec.eq_of_getLsbD_eq fun j hj => ?_
    simp [hj]

/-- `Interest`.  One is built from the four constants with `|`, so it has some of their bits and no
others. -/
structure Interest where
  bits : Mask
  known : Within bits (epollIn ||| epollPri ||| epollErr ||| epollOut)
  nonempty : bits ≠ 0
  deriving DecidableEq, Repr

/-- `Interest::READABLE`. -/
def Interest.readable : Interest := ⟨epollIn, by decide, by decide⟩

/-- `Interest::WRITABLE`. -/
def Interest.writable : Interest := ⟨epollOut, by decide, by decide⟩

/-- `Interest::add` and `|`. -/
def Interest.add (a b : Interest) : Interest where
  bits := a.bits ||| b.bits
  known := a.known.or_left b.known
  nonempty := fun h => a.nonempty (BitVec.or_eq_zero_iff.mp h).1

structure Waiters where
  readers : List Waker
  writers : List Waker
  deriving DecidableEq, Repr

/-- `Waiters::register`. -/
def Waiters.register (waiters : List Waker) (waker : Waker) : List Waker :=
  if waker ∈ waiters then waiters else waiters ++ [waker]

/-- `ScheduledIo`, with what the loop has it armed for. -/
structure ScheduledIo where
  interest : Interest
  readiness : BitVec 64
  registered : Bool
  events : Mask
  waiters : Waiters
  armed : Option Mask
  deriving DecidableEq, Repr

/-- Whether `EPOLL_CTL_DEL` and `EPOLL_CTL_ADD` succeed. -/
structure Ctl where
  del : Bool
  add : Bool
  deriving DecidableEq, Repr

/-- The readiness cached. -/
def ScheduledIo.ready (io : ScheduledIo) : Mask := (unpackReadiness io.readiness).2

/-- Its generation. -/
def ScheduledIo.generation (io : ScheduledIo) : BitVec 32 := (unpackReadiness io.readiness).1

/-- A store of `readiness`. -/
def ScheduledIo.store (io : ScheduledIo) (generation : BitVec 32) (ready : Mask) : ScheduledIo :=
  { io with readiness := packReadiness generation ready }

@[simp] theorem ready_store (io : ScheduledIo) (generation : BitVec 32) (ready : Mask) :
    (io.store generation ready).ready = ready := by
  unfold ScheduledIo.ready ScheduledIo.store
  rw [unpack_pack]

/-- The events to arm. -/
def ScheduledIo.desired (io : ScheduledIo) : Mask :=
  if Meets io.ready errorEvents then 0 else io.interest.bits &&& ~~~io.ready

/-- `EPOLL_CTL_DEL`, and `*events = 0` whatever comes of it. -/
def ScheduledIo.disarm (io : ScheduledIo) (del : Bool) : ScheduledIo :=
  { io with armed := if del then none else io.armed, events := 0 }

/-- `update_interest`; `false` is an error. -/
def ScheduledIo.updateInterest (io : ScheduledIo) (ctl : Ctl) : ScheduledIo × Bool :=
  if io.desired = io.events then (io, true)
  else if io.events ≠ 0 ∧ ctl.del = false then (io.disarm false, false)
  else
    let io' := if io.events ≠ 0 then io.disarm true else io
    if io.desired = 0 then (io', true)
    else if ctl.add then
      ({ io' with armed := some (io.desired ||| errorEvents), events := io.desired }, true)
    else (io', false)

def ScheduledIo.recordError (io : ScheduledIo) : ScheduledIo :=
  io.store (io.generation + 1) (io.ready ||| epollErr)

/-- `update_interest`, and `record_error` if it fails. -/
def ScheduledIo.updateOrRecord (io : ScheduledIo) (ctl : Ctl) : ScheduledIo × Bool :=
  let r := io.updateInterest ctl
  if r.2 then (r.1, true) else (r.1.recordError, false)

/-- `ScheduledIo::register`; `none` is an error. -/
def register (fd : Int) (interest : Interest) (ctl : Ctl) : Option ScheduledIo :=
  if fd < 0 then none
  else
    let r := ScheduledIo.updateInterest
      { interest := interest
        readiness := 0
        registered := true
        events := 0
        waiters := ⟨[], []⟩
        armed := none } ctl
    if r.2 then some r.1 else none

/-- The section of `readiness_callback` under the lock of `events`; `none` returns before
`wake_ready`. -/
def ScheduledIo.callback (io : ScheduledIo) (events : Mask) (ctl : Ctl) : Option ScheduledIo :=
  if !io.registered then none
  else some ((io.store (io.generation + 1) (io.ready ||| events)).updateOrRecord ctl).1

/-- The section of `clear_ready` under the lock of `events`; `false` goes on to `wake_ready`. -/
def ScheduledIo.clearReady (io : ScheduledIo) (ready : Mask) (generation : BitVec 32) (ctl : Ctl) :
    ScheduledIo × Bool :=
  if !io.registered then (io, true)
  else if io.generation ≠ generation then (io, true)
  else (io.store generation (io.ready &&& ~~~ready)).updateOrRecord ctl

def ScheduledIo.deregister (io : ScheduledIo) (del : Bool) : ScheduledIo :=
  if !io.registered then io
  else
    let io' := { io with registered := false }
    if io.events ≠ 0 then io'.disarm del else io'

/-- The events that wake readers. -/
def readerEvents : Mask := epollIn ||| epollPri ||| errorEvents

/-- The events that wake writers. -/
def writerEvents : Mask := epollOut ||| errorEvents

/-- The section of `wake_ready` under the lock of `waiters`, for the readiness it has loaded. -/
def ScheduledIo.takeReady (io : ScheduledIo) (ready : Mask) : List Waker × ScheduledIo :=
  let readers := if Meets ready readerEvents then io.waiters.readers else []
  let writers := if Meets ready writerEvents then io.waiters.writers else []
  (readers ++ writers,
    { io with
      waiters :=
        { readers := if Meets ready readerEvents then [] else io.waiters.readers
          writers := if Meets ready writerEvents then [] else io.waiters.writers } })

/-- A bit of the interest or of an error is cached. -/
def ScheduledIo.matches (io : ScheduledIo) (i : Interest) : Prop :=
  Meets io.ready (i.bits ||| errorEvents)

instance (io : ScheduledIo) (i : Interest) : Decidable (io.matches i) :=
  inferInstanceAs (Decidable (Meets _ _))

/-- The lists after a waker was registered for an interest. -/
def Waiters.join (ws : Waiters) (waker : Waker) (i : Interest) : Waiters :=
  { readers :=
      if Meets i.bits epollIn ∨ Meets i.bits epollPri ∨ Meets i.bits epollErr then
        Waiters.register ws.readers waker
      else ws.readers
    writers :=
      if Meets i.bits epollOut then Waiters.register ws.writers waker else ws.writers }

/-- `poll_ready`, all under the lock of `waiters`; `none` is `Pending`. -/
def ScheduledIo.pollReady (io : ScheduledIo) (waker : Waker) (i : Interest) :
    Option (Mask × BitVec 32) × ScheduledIo :=
  if io.matches i then (some (io.ready &&& (i.bits ||| errorEvents), io.generation), io)
  else (none, { io with waiters := io.waiters.join waker i })

end OhosFfrt.Reactor.State

import Stor.Engine.Record

/-!
# The engine as the goroutines see it

`engine/engine.go` and `engine/session.go` once more, now for several sessions
and everything that runs beside them: the goroutines of `Session.Start`, the calls
of the engine's methods, and `runQueueOrchestrator`.  A thread is the list of what
it has left to do (`Op`), one operation for each section under a lock, and a step
lets one thread do its first operation.

What the disk and the network decide is the `Choice` of a step, and so is the order
in which a loop over a map finds the sessions.  A section under the read lock of the
engine looks at one entry of the map and can be taken at any time.  The sessions are
the session objects made so far; those that `e.sessions` still has are `listed`.
-/

namespace Stor.Engine
namespace Control

open Lib

/-- The places of `Session.run` where it reads the state, waits, or may fail. -/
inductive Phase where
  | resolve
  | fetch
  | named
  | findPeers
  | checkResume
  | prepare
  | download
  | seed
  | seedExit
  deriving DecidableEq, Repr

inductive Choice where
  | next
  | magnet
  | missing
  | verify
  | failed
  | cancelled
  | order (sessions : List Nat)
  | swap (a b : Option Nat)
  deriving DecidableEq, Repr

inductive Op where
  -- the goroutine of a session
  | phase (p : Phase)
  | setState (new : TorrentState)
  | register
  | unregister
  | exit (failed : Bool)
  | onDone
  -- the bus, and the lock of the engine
  | publish (i : Nat) (old new : TorrentState)
  | receive
  | lock
  | unlock
  -- the queue
  | compact
  | countActive
  | collect (active : Nat)
  | startNext (active : Nat) (queued : List Nat)
  | startIfFree (i : Nat)
  | start (i : Nat) (active : Nat)
  -- the calls
  | addTorrent (id infoHash : Bytes)
  | removeTorrent (i : Nat)
  | pauseTorrent (i : Nat)
  | pause (i : Nat)
  | setPaused (i : Nat)
  | delete (i : Nat)
  | resumeTorrent (i : Nat)
  | checkPaused (i : Nat)
  | setAdding (i : Nat)
  | queueTop (i : Nat)
  | queueUp (i : Nat)
  | queueDown (i : Nat)
  | queueBottom (i : Nat)
  | setMaxActive (n : Nat)
  deriving DecidableEq, Repr

/-- A goroutine of `Session.Start`: whether its context is cancelled, and what it
has left to do. -/
structure Run where
  cancelled : Bool
  code : List Op
  deriving DecidableEq, Repr

/-- `cancel` names the run whose cancel function `s.cancel` holds. -/
structure Session where
  id : Bytes
  infoHash : Bytes
  listed : Bool
  state : TorrentState
  queuePosition : Int
  cancel : Option Nat
  runs : List Run
  deriving DecidableEq, Repr

/-- `events` is the buffer of the orchestrator's subscription, `handlers` the table
of the peer listener. -/
structure State where
  maxActive : Nat
  sessions : List Session
  locked : Bool
  events : List (TorrentState × TorrentState)
  handlers : Bytes → Option Nat
  calls : List (List Op)

def maxSessions : Nat := 10000

/-- `Buffer` of the orchestrator's subscription. -/
def eventBuffer : Nat := 64

def isQueueActive : TorrentState → Bool
  | .adding | .downloading | .metadata | .verifying => true
  | _ => false

/-- The orchestrator acts on a change from an active to an inactive state. -/
def frees (old new : TorrentState) : Bool := isQueueActive old && !isQueueActive new

namespace Session

/-- `NewSession` with the record of `AddTorrent`. -/
def new (id infoHash : Bytes) (queuePosition : Int) : Session where
  id := id
  infoHash := infoHash
  listed := true
  state := .adding
  queuePosition := queuePosition
  cancel := none
  runs := []

def isSeeder (s : Session) : Bool := s.state = .seeding ∨ s.state = .complete

def isRunning (s : Session) : Bool := s.cancel.isSome

/-- The case of `activeCount` for one session. -/
def counted (s : Session) : Bool :=
  s.listed && match s.state with
    | .downloading | .metadata | .verifying => true
    | .adding => s.isRunning
    | _ => false

/-- `Session.Start`, up to the goroutine. -/
def start (s : Session) : Session :=
  { s with
    cancel := some s.runs.length
    runs := s.runs ++ [{ cancelled := false, code := [.phase .resolve] }] }

/-- The section of `Pause` under the lock. -/
def pause (s : Session) : Session :=
  match s.cancel with
  | none => s
  | some k =>
    { s with cancel := none, runs := s.runs.modify k fun r => { r with cancelled := true } }

def shouldTransition (s : Session) : Bool :=
  match s.state with
  | .downloading | .metadata | .seeding | .verifying | .adding => true
  | _ => false

/-- The run `k` has `code` left. -/
def setCode (s : Session) (k : Nat) (code : List Op) : Session :=
  { s with runs := s.runs.modify k fun r => { r with code := code } }

end Session

/-- Where `Session.run` goes from `p`.  The waits see a cancelled context, and may
return with a result or another error all the same. -/
def Phase.after (p : Phase) (s : Session) (cancelled : Bool) (c : Choice) : Option (List Op) :=
  match p, c with
  -- `phaseResolve`
  | .resolve, .next => some [.phase .named]
  | .resolve, .magnet => some [.setState .metadata, .phase .fetch]
  | .resolve, .failed => some [.exit true]
  | .fetch, .next => some [.phase .named]
  | .fetch, .failed => some [.exit true]
  | .fetch, .cancelled => if cancelled then some [.exit false] else none
  | .named, .next =>
    if s.isSeeder then some [.phase .checkResume]
    else some [.setState .downloading, .phase .findPeers]
  | .named, .failed => some [.exit true]
  | .findPeers, .next => some [.phase .checkResume]
  | .findPeers, .cancelled => if cancelled then some [.exit false] else none
  -- `run`: a seeder whose file is there goes to `phaseSeedDirect`
  | .checkResume, .next =>
    if s.isSeeder then some [.setState .seeding, .register, .phase .seed]
    else some [.phase .prepare]
  | .checkResume, .missing => some [.phase .prepare]
  -- `phaseDownload`, with the persisted bitfield or with `VerifyPieces`
  | .prepare, .next => some [.setState .downloading, .register, .phase .download]
  | .prepare, .verify =>
    some [.setState .verifying, .setState .downloading, .register, .phase .download]
  | .prepare, .failed => some [.exit true]
  | .download, .next => some [.setState .seeding, .phase .seed]
  | .download, .failed => some [.exit true]
  | .download, .cancelled => if cancelled then some [.exit false] else none
  -- `phaseSeed`
  | .seed, .cancelled => if cancelled then some [.unregister, .phase .seedExit] else none
  | .seedExit, .next =>
    if s.state = .seeding then some [.setState .complete, .exit false] else some [.exit false]
  | _, _ => none

/-- `startQueued`. -/
def startQueued : List Op := [.lock, .countActive, .unlock]

inductive Call where
  | addTorrent (id infoHash : Bytes)
  | removeTorrent (i : Nat)
  | pauseTorrent (i : Nat)
  | resumeTorrent (i : Nat)
  | queueTop (i : Nat)
  | queueUp (i : Nat)
  | queueDown (i : Nat)
  | queueBottom (i : Nat)
  | setMaxActive (n : Nat)
  deriving DecidableEq, Repr

def Call.code : Call → List Op
  | .addTorrent id infoHash => [.lock, .addTorrent id infoHash, .unlock]
  | .removeTorrent i => [.lock, .removeTorrent i]
  | .pauseTorrent i => [.pauseTorrent i]
  | .resumeTorrent i => [.resumeTorrent i]
  | .queueTop i => [.lock, .queueTop i, .unlock]
  | .queueUp i => [.lock, .queueUp i, .unlock]
  | .queueDown i => [.lock, .queueDown i, .unlock]
  | .queueBottom i => [.lock, .queueBottom i, .unlock]
  | .setMaxActive n => [.lock, .setMaxActive (max n 1), .unlock] ++ startQueued

namespace State

/-- An engine without sessions, its orchestrator subscribed. -/
def new (maxActive : Nat) : State where
  maxActive := maxActive
  sessions := []
  locked := false
  events := []
  handlers := fun _ => none
  calls := [[.receive]]

def modify (e : State) (i : Nat) (f : Session → Session) : State :=
  { e with sessions := e.sessions.modify i f }

def activeCount (e : State) : Nat := e.sessions.countP Session.counted

def isListed (e : State) (i : Nat) : Bool := (e.sessions[i]?).any Session.listed

def position (e : State) (i : Nat) : Int := ((e.sessions[i]?).map Session.queuePosition).getD 0

/-- The sessions that pass `p`, by their places. -/
def places (e : State) (p : Session → Bool) : List Nat :=
  (List.range e.sessions.length).filter fun i => (e.sessions[i]?).any p

/-- `l` is what `sortByQueuePosition` makes of the sessions `m` in some order. -/
def isSorted (e : State) (m l : List Nat) : Bool :=
  l.isPerm m && decide (l.Pairwise fun a b => e.position a ≤ e.position b)

/-- `setState` of the session `i`, with what is published behind the lock. -/
def setState (e : State) (i : Nat) (new : TorrentState) : Option (State × List Op) :=
  (e.sessions[i]?).map fun s =>
    if s.state = new then (e, [])
    else (e.modify i fun s => { s with state := new }, [.publish i s.state new])

/-! ## Queue positions -/

def maxQueuePosition (e : State) : Int :=
  (e.sessions.filter Session.listed).foldl (fun m s => max m s.queuePosition) (-1)

/-- `f` on the position of every listed session. -/
def mapPositions (e : State) (f : Nat → Int → Int) : State :=
  { e with
    sessions := e.sessions.mapIdx fun j s =>
      if s.listed then { s with queuePosition := f j s.queuePosition } else s }

/-- `compactQueueLocked`, with the sessions in the order `l`. -/
def compactQueueLocked (e : State) (l : List Nat) : State :=
  e.mapPositions fun j _ => l.idxOf j

/-- The loop of `setQueuePosition`, and of `QueueBottom`. -/
def setQueuePosition (e : State) (i : Nat) (newPos : Int) : State :=
  let oldPos := e.position i
  e.mapPositions fun j pos =>
    if j = i then newPos
    else if oldPos < newPos then if oldPos < pos ∧ pos ≤ newPos then pos - 1 else pos
    else if newPos ≤ pos ∧ pos < oldPos then pos + 1 else pos

/-- `a` is a session at `pos` that the loop of `swapQueuePositions` may end with. -/
def foundAt (e : State) (pos : Int) (a : Option Nat) : Bool :=
  match a with
  | none => e.sessions.all fun s => !(s.listed && s.queuePosition = pos)
  | some i => (e.sessions[i]?).any fun s => s.listed && s.queuePosition = pos

def swapQueuePositions (e : State) (posA posB : Int) (a b : Option Nat) : Option State :=
  if e.foundAt posA a ∧ e.foundAt posB b then
    some (e.mapPositions fun j pos =>
      if some j = b then posA else if some j = a then posB else pos)
  else none

/-- A move of the queue at the session `i`, if it is there. -/
def queueMove (e : State) (i : Nat) (move : Option (State × List Op)) :
    Option (State × List Op) :=
  if e.isListed i then move else some (e, [])

/-! ## Sessions -/

/-- The map and limit checks of `AddTorrent`, and the new session. -/
def addTorrent (e : State) (id infoHash : Bytes) : State × List Op :=
  if e.sessions.any fun s => s.listed && s.id = id then (e, [])
  else if maxSessions ≤ e.sessions.countP Session.listed then (e, [])
  else
    ({ e with sessions := e.sessions ++ [Session.new id infoHash (e.maxQueuePosition + 1)] },
      [.countActive])

/-- The exit section of the goroutine, and what follows it. -/
def exit (e : State) (i : Nat) (failed : Bool) : Option (State × List Op) :=
  (e.sessions[i]?).map fun s =>
    (e.modify i fun s => { s with cancel := none },
      if failed ∧ s.state ≠ .error then [.setState .error, .onDone] else [.onDone])

/-- One operation of a thread; `self` is the session and the run of a goroutine.
The second component is what the thread has to do next. -/
def perform (self : Option (Nat × Nat)) (e : State) (c : Choice) : Op → Option (State × List Op)
  | .phase p =>
    self.bind fun (i, k) => (e.sessions[i]?).bind fun s => (s.runs[k]?).bind fun r =>
      (p.after s r.cancelled c).map fun next => (e, next)
  | .setState new => self.bind fun (i, _) => e.setState i new
  | .register =>
    self.bind fun (i, _) => (e.sessions[i]?).map fun s =>
      ({ e with handlers := Function.update e.handlers s.infoHash (some i) }, [])
  | .unregister =>
    self.bind fun (i, _) => (e.sessions[i]?).map fun s =>
      ({ e with handlers := Function.update e.handlers s.infoHash none }, [])
  | .exit failed => self.bind fun (i, _) => e.exit i failed
  | .onDone => some (e, startQueued)
  | .publish _ old new =>
    some (if e.events.length < eventBuffer then { e with events := e.events ++ [(old, new)] } else e,
      [])
  | .receive =>
    match e.events with
    | [] => none
    | (old, new) :: rest =>
      some ({ e with events := rest },
        if frees old new then [.lock, .compact, .countActive, .unlock, .receive] else [.receive])
  | .lock => if e.locked then none else some ({ e with locked := true }, [])
  | .unlock => some ({ e with locked := false }, [])
  | .compact =>
    match c with
    | .order l =>
      if e.isSorted (e.places Session.listed) l then some (e.compactQueueLocked l, []) else none
    | _ => none
  | .countActive =>
    some (e, if e.maxActive ≤ e.activeCount then [] else [.collect e.activeCount])
  | .collect active =>
    match c with
    | .order l =>
      if e.isSorted (e.places fun s => s.listed && s.state = .adding) l then
        some (e, [.startNext active l])
      else none
    | _ => none
  | .startNext _ [] => some (e, [])
  | .startNext active (i :: queued) =>
    if e.maxActive ≤ active then some (e, [])
    else
      (e.sessions[i]?).map fun s =>
        (e, if s.isRunning then [.startNext active queued]
          else [.start i active, .startNext (active + 1) queued])
  | .startIfFree i =>
    some (e, if e.activeCount < e.maxActive then [.start i e.activeCount] else [])
  | .start i _ => (e.sessions[i]?).map fun _ => (e.modify i Session.start, [])
  | .addTorrent id infoHash => some (e.addTorrent id infoHash)
  | .removeTorrent i =>
    some (e,
      if e.isListed i then [.pause i, .delete i, .compact, .unlock] ++ startQueued else [.unlock])
  | .pauseTorrent i => some (e, if e.isListed i then .pause i :: startQueued else [])
  | .pause i =>
    (e.sessions[i]?).map fun s =>
      (e.modify i Session.pause, if s.shouldTransition then [.setPaused i] else [])
  | .setPaused i => e.setState i .paused
  | .delete i => some (e.modify i fun s => { s with listed := false }, [])
  | .resumeTorrent i => some (e, if e.isListed i then [.checkPaused i] else [])
  | .checkPaused i =>
    (e.sessions[i]?).map fun s =>
      (e, if s.state = .paused ∨ s.state = .error then [.setAdding i, .startIfFree i] else [])
  | .setAdding i => e.setState i .adding
  | .queueTop i =>
    e.queueMove i (some (if e.position i = 0 then (e, [])
      else (e.setQueuePosition i 0, [.countActive])))
  | .queueUp i =>
    e.queueMove i (if e.position i ≤ 0 then some (e, [])
      else match c with
        | .swap a b =>
          (e.swapQueuePositions (e.position i) (e.position i - 1) a b).map (·, [.countActive])
        | _ => none)
  | .queueDown i =>
    e.queueMove i (if e.maxQueuePosition ≤ e.position i then some (e, [])
      else match c with
        | .swap a b =>
          (e.swapQueuePositions (e.position i) (e.position i + 1) a b).map (·, [.countActive])
        | _ => none)
  | .queueBottom i =>
    e.queueMove i (some (if e.position i = e.maxQueuePosition then (e, [])
      else (e.setQueuePosition i e.maxQueuePosition, [])))
  | .setMaxActive n => some ({ e with maxActive := n }, [])

end State

/-- Who takes the next step: the run `k` of the session `i`, the call `t`, or a
new call. -/
inductive Action where
  | go (i k : Nat) (c : Choice)
  | thread (t : Nat) (c : Choice)
  | call (k : Call)
  deriving DecidableEq, Repr

namespace Action

/-- The session and the run of a goroutine. -/
def self : Action → Option (Nat × Nat)
  | .go i k _ => some (i, k)
  | _ => none

def choice : Action → Choice
  | .go _ _ c | .thread _ c => c
  | .call _ => .next

end Action

namespace State

/-- What the thread of `a` has left to do. -/
def code (e : State) : Action → List Op
  | .go i k _ => (((e.sessions[i]?).bind fun s => s.runs[k]?).map Run.code).getD []
  | .thread t _ => (e.calls[t]?).getD []
  | .call _ => []

def setCode (e : State) (a : Action) (code : List Op) : State :=
  match a with
  | .go i k _ => e.modify i (·.setCode k code)
  | .thread t _ => { e with calls := e.calls.set t code }
  | .call _ => e

def step (e : State) (a : Action) : Option State :=
  match a with
  | .call k => some { e with calls := e.calls ++ [k.code] }
  | a =>
    match e.code a with
    | [] => none
    | op :: rest =>
      (e.perform a.self a.choice op).map fun (e, next) => e.setCode a (next ++ rest)

end State

end Control
end Stor.Engine

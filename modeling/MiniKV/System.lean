import MiniKV.Open

/-!
# Threads, instances and runs

An `Instance` is an open database with its worker thread and the calls that wait
on one of its condition variables. Its steps are the sections that run under
the lock, and the single calls of `PublishTable` that the worker makes without
it; so a run of steps is an interleaving of all threads.

A `World` is a directory with the instance that holds its `LOCK`, if any, and
the closed instances that still exist. Steps add opening, the death of a process
and a crash of the machine.
-/

namespace MiniKV

open Lib

/-! ## Instances -/

/-- A call that waits. -/
inductive Parked where
  | write (type : ValueType) (key value : Bytes) (mode : SyncMode)
  | flush
  | compact
  | waitForBackgroundWork
  /-- `Close` joining the worker. -/
  | closeJoin
  /-- `Close` waiting for another `Close`. -/
  | closeWait
  deriving DecidableEq, Repr

inductive Worker where
  /-- No thread, or one that has returned. -/
  | absent
  /-- In `background_cv_.wait` of `BackgroundLoop`. -/
  | idle
  /-- In the unlocked `PublishTable` of `RunBackgroundWorkLocked`. -/
  | publishing (generation : Nat) (memtable : MemTable) (stage : PublishStage)

structure Instance where
  db : Database
  worker : Worker
  parked : List Parked := []

inductive Call where
  | put (key value : Bytes) (mode : SyncMode)
  | delete (key : Bytes) (mode : SyncMode)
  | flush
  | compact
  | waitForBackgroundWork
  | close
  deriving DecidableEq, Repr

inductive Action where
  /-- A thread makes a call. -/
  | call (c : Call)
  /-- The call parked at this position wakes up. -/
  | resume (position : Nat)
  /-- The worker runs its next section, or its next unlocked call. -/
  | worker
  deriving DecidableEq, Repr

/-- What a step gives back to the caller, if the call returned in it. -/
abbrev Returned := Option (Except Status Unit)

namespace Instance

def park (inst : Instance) (p : Parked) : Instance := { inst with parked := inst.parked ++ [p] }

def unpark (inst : Instance) (position : Nat) : Instance :=
  { inst with parked := inst.parked.eraseIdx position }

/-- Run a section to its end, and return from the call. -/
def complete (inst : Instance) (m : Act Unit) : Io (Returned × Instance) := do
  let (result, db) ← runSection inst.db m
  pure (some result, { inst with db := db })

/-- The call returns without touching anything. -/
def answer (inst : Instance) (status : Status) : Io (Returned × Instance) :=
  pure (some (if status.isOk then .ok () else .error status), inst)

def closedStatus : Status := .closed "database is not running"

section

variable (F : StorageFormat)

/-- `Database::Write` from its wait on: go back to waiting, or finish. -/
def writeTurn (inst : Instance) (type : ValueType) (key value : Bytes) (mode : SyncMode) :
    Io (Returned × Instance) :=
  if writeBlocked inst.db then pure (none, inst.park (.write type key value mode))
  else inst.complete (writeFinish F type key value mode)

/-- `Database::Write` -/
def write (inst : Instance) (type : ValueType) (key value : Bytes) (mode : SyncMode) :
    Io (Returned × Instance) :=
  let validation := validateWalRecord inst.db.format
    { key := key, sequence := 1, type := type, value := value }
  if !validation.isOk then inst.answer validation
  else do
    let (entered, db) ← runSection inst.db (writeEnter F mode)
    match entered with
    | .error e => pure (some (.error e), { inst with db := db })
    | .ok () => writeTurn F { inst with db := db } type key value mode

/-- A call from its start. -/
def call (inst : Instance) : Call → Io (Returned × Instance)
  | .put key value mode => inst.write F .value key value mode
  | .delete key mode => inst.write F .deletion key [] mode
  | .flush =>
    if !inst.db.isRunning then inst.answer closedStatus
    else if inst.db.backgroundWorkRunning then pure (none, inst.park .flush)
    else inst.complete (flushResume F)
  | .compact =>
    if !inst.db.isRunning then inst.answer closedStatus
    else if inst.db.backgroundWorkRunning then pure (none, inst.park .compact)
    else inst.complete (compactResume F)
  | .waitForBackgroundWork =>
    if !inst.db.isRunning then inst.answer closedStatus
    else if inst.db.backgroundWorkRequested ∨ inst.db.backgroundWorkRunning then
      pure (none, inst.park .waitForBackgroundWork)
    else inst.answer inst.db.backgroundStatus
  | .close =>
    match inst.db.state with
    | .closed => inst.answer inst.db.closeStatus
    | .closing => pure (none, inst.park .closeWait)
    | .running => do
      let (_, db) ← runSection inst.db closeBegin
      pure (none, { inst with db := db }.park .closeJoin)

/-- A parked call wakes up and, if what it waits for holds, goes on. Flush and Compact
look only at the worker; they do not look at the state of the database again. -/
def resume (inst : Instance) (position : Nat) : Io (Returned × Instance) :=
  match inst.parked[position]? with
  | none => pure (none, inst)
  | some (.write type key value mode) => (inst.unpark position).writeTurn F type key value mode
  | some .flush =>
    if inst.db.backgroundWorkRunning then pure (none, inst)
    else (inst.unpark position).complete (flushResume F)
  | some .compact =>
    if inst.db.backgroundWorkRunning then pure (none, inst)
    else (inst.unpark position).complete (compactResume F)
  | some .waitForBackgroundWork =>
    if inst.db.backgroundWorkRequested ∨ inst.db.backgroundWorkRunning then pure (none, inst)
    else (inst.unpark position).answer inst.db.backgroundStatus
  | some .closeJoin =>
    match inst.worker with
    | .absent => (inst.unpark position).complete (closeFinish F)
    | _ => pure (none, inst)
  | some .closeWait =>
    if inst.db.state = .closed then (inst.unpark position).answer inst.db.closeStatus
    else pure (none, inst)

/-- The worker ends a round of work under the lock. -/
def workerFinish (inst : Instance) (work : Act Unit) : Io (Returned × Instance) := do
  let (_, db) ← runSection inst.db (backgroundFinish work)
  pure (none, { inst with db := db, worker := .idle })

/-- `BackgroundLoop` -/
def workerStep (inst : Instance) : Io (Returned × Instance) :=
  match inst.worker with
  | .absent => pure (none, inst)
  | .idle =>
    if inst.db.stopBackground then pure (none, { inst with worker := .absent })
    else if !inst.db.backgroundWorkRequested then pure (none, inst)
    else
      let inst := { inst with db := { inst.db with
        backgroundWorkRequested := false, backgroundWorkRunning := true } }
      match inst.db.immutable with
      | some imm =>
        if !imm.versionPublished ∧ imm.pendingTable.isNone then
          pure (none, { inst with worker := .publishing imm.generation imm.memtable .start })
        else workerFinish inst (backgroundWork F)
      | none => workerFinish inst (backgroundWork F)
  | .publishing generation _ (.done result) =>
    workerFinish inst (backgroundPublished F generation result)
  | .publishing generation memtable stage => do
    let stage ← publishStep F inst.db.format generation memtable stage
    pure (none, { inst with worker := .publishing generation memtable stage })

def step (inst : Instance) : Action → Io (Returned × Instance)
  | .call c => inst.call F c
  | .resume position => inst.resume F position
  | .worker => inst.workerStep F

/-- A database just opened. -/
def ofDatabase (db : Database) : Instance where
  db := db
  worker := if db.options.backgroundMaintenance then .idle else .absent

end

end Instance

/-! ## Worlds -/

structure World where
  store : Store
  /-- The instance that holds `LOCK`. -/
  current : Option Instance := none
  /-- Closed instances that have not been destroyed. -/
  closed : List Instance := []

inductive WorldEvent where
  /-- Open the directory; it is refused while `LOCK` is held. -/
  | openDatabase (o : Options) (script : List Outcome)
  | act (a : Action) (script : List Outcome)
  /-- A step of a closed instance. -/
  | actClosed (position : Nat) (a : Action) (script : List Outcome)
  /-- The process with the open instance dies. -/
  | kill
  /-- A closed instance goes away. -/
  | drop (position : Nat)
  /-- Every process dies, and the disk keeps one of its possible states. -/
  | crash (directory : Nat) (cut : Inode → Nat)

namespace World

def empty : World where
  store := .empty

section

variable (F : StorageFormat)

/-- Put an instance back: one that is closed has released `LOCK`. -/
def settle (w : World) (store : Store) (inst : Instance) : World :=
  if inst.db.state = .closed then
    { store := store, current := none, closed := w.closed ++ [inst] }
  else { w with store := store, current := some inst }

def step (w : World) : WorldEvent → World
  | .openDatabase o script =>
    match w.current with
    | some _ => w
    | none =>
      match openWithEnvironment F o { store := w.store, script := script } with
      | (.ok (db, _), fs) => { w with store := fs.store, current := some (.ofDatabase db) }
      | (_, fs) => { w with store := fs.store }
  | .act a script =>
    match w.current with
    | none => w
    | some inst =>
      match inst.step F a { store := w.store, script := script } with
      | (.ok (_, inst), fs) => w.settle fs.store inst
      | (_, fs) => { w with store := fs.store, current := none }
  | .actClosed position a script =>
    match w.closed[position]? with
    | none => w
    | some inst =>
      match inst.step F a { store := w.store, script := script } with
      | (.ok (_, inst), fs) => { w with store := fs.store, closed := w.closed.set position inst }
      | (_, fs) => { w with store := fs.store, closed := w.closed.eraseIdx position }
  | .kill => { w with current := none }
  | .drop position => { w with closed := w.closed.eraseIdx position }
  | .crash directory cut =>
    { store := ({ w.store with disk := w.store.disk.crash directory cut }).label .crashed
      current := none
      closed := [] }

/-- The state after a list of events. -/
def run (w : World) : List WorldEvent → World
  | [] => w
  | e :: es => run (w.step F e) es

end

end World

end MiniKV

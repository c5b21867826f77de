/-
The server (`server.cpp`): the acceptor, the sessions it has started, the timer
that saves the store and the timer that prints the statistics, on a pool of
threads. All sessions work on one store. Each timer is started again by its
handler, when it has saved or printed; so there is one flush and one dump at a
time, between any steps of the sessions.

A step is one of a session, of a call on the store that one of them has made,
of the handler of a timer, or the acceptor's. An exception that leaves a
handler ends the process, and after undefined behaviour nothing is said: there
is no step after a fault.
-/
import ConfigServer.Lifetime
import ConfigServer.Statistics

namespace ConfigServer

/-- The wait of a timer is outstanding, or its handler is at work. -/
inductive TimerPc
  | waiting
  | running
deriving DecidableEq

/-- The step is one of the flush. -/
def Action.isFlush : Action → Bool
  | .callSet _ _ => false
  | .callGet _ => false
  | .step _ => false
  | _ => true

/-- The step is one of the session itself. -/
def Session.Action.isOwn : Session.Action → Bool
  | .store _ => false
  | _ => true

structure Server where
  reporting : Reporting
  /-- Every session started, in order; those that are no more are left as they were. -/
  sessions : List Owned := []
  saveTimer : TimerPc := .waiting
  statTimer : TimerPc := .waiting

namespace Server

/-- The server is started on a store. -/
def start (world : World) : Server := { reporting := { world } }

def world (srv : Server) : World := srv.reporting.world

def setWorld (srv : Server) (world : World) : Server :=
  { srv with reporting := { srv.reporting with world } }

/-- A session as it finds the store. -/
def view (srv : Server) (s : Session) : Session := { s with world := srv.world }

inductive Action
  /-- A client has connected: a session is made and started, and the next one is waited for. -/
  | accept
  | acceptFailed
  | session (i : Nat) (action : Session.Action)
  /-- Call `i` on the store takes its next step. -/
  | call (i : Nat)
  | saveExpired
  | flush (action : ConfigServer.Action)
  | statExpired
  | dump

/-- The session, if it has not been destroyed, takes a step of its own. -/
def stepSession (srv : Server) (i : Nat) (action : Session.Action) : Option Server :=
  match srv.sessions[i]? with
  | none => none
  | some s =>
    if action.isOwn then
      ({ s with session := srv.view s.session } : Owned).step action |>.map fun s =>
        { srv.setWorld s.session.world with sessions := srv.sessions.set i s }
    else
      none

/-- `save_store`: the timer is started again when `flush_if_dirty` has returned. -/
def stepFlush (srv : Server) (action : ConfigServer.Action) : Option Server :=
  if srv.saveTimer = .running ∧ action.isFlush then
    (srv.world.step action).map fun world =>
      { srv.setWorld world with saveTimer := if world.flush = .idle then .waiting else .running }
  else
    none

/-- `print_stat`: the timer is started again when `dump_and_reset` has returned. -/
def stepDump (srv : Server) : Option Server :=
  if srv.statTimer = .running then
    (srv.reporting.step .dump).map fun reporting =>
      { srv with reporting, statTimer := if reporting.dump = .idle then .waiting else .running }
  else
    none

def step (srv : Server) (action : Action) : Option Server :=
  if srv.sessions.any fun s => s.session.conn.fault.isSome then none
  else
    match action with
    | .accept => some { srv with sessions := srv.sessions ++ [.start srv.world] }
    | .acceptFailed => some srv
    | .session i action => srv.stepSession i action
    | .call i => (srv.world.step (.step i)).map srv.setWorld
    | .saveExpired => if srv.saveTimer = .waiting then some { srv with saveTimer := .running } else none
    | .flush action => srv.stepFlush action
    | .statExpired => if srv.statTimer = .waiting then some { srv with statTimer := .running } else none
    | .dump => srv.stepDump

end Server

end ConfigServer

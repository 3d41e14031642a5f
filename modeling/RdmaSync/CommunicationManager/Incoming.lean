import Mathlib.Data.Set.Card
import RdmaSync.CommunicationManager.Handshake

/-!
This module contains the event handler of a storage node, and the two calls of `startAndConnect` that
serve the connections that it publishes.
-/

namespace CommunicationManager.Incoming

open Threads

inductive EventType where
  | addrResolved
  | addrError
  | routeResolved
  | routeError
  | connectRequest
  | connectResponse
  | connectError
  | unreachable
  | rejected
  | established
  | disconnected
  | deviceRemoval
  | multicastJoin
  | multicastError
  | addrChange
  | timewaitExit
  deriving DecidableEq

/-- The part of `CM` that the handler works on; ids stand for the pointers to `rdma_cm_id`. -/
structure Cm (Id : Type) where
  connections : Id → Bool
  context : Id → RdmaContext
  incomingIds : List Id
  numberConnections : Nat
  numberConnectionsEstablished : Nat
  running : Bool

inductive Stage where
  | unused
  | requested
  | failed
  | established
  | disconnected
  | exited
  deriving DecidableEq

def Stage.wasEstablished (stage : Stage) : Bool :=
  match stage with
  | .established | .disconnected | .exited => true
  | _ => false

/-- The attempts that `numberConnections` counts. -/
def Stage.accepted (stage : Stage) : Bool :=
  match stage with
  | .requested | .failed | .established => true
  | _ => false

def Stage.connected (stage : Stage) : Bool :=
  match stage with
  | .established => true
  | _ => false

inductive Call where
  | first
  | second
  deriving DecidableEq

inductive ServerPc (Id : Type) where
  | waits (call : Call)
  | passed (call : Call)
  | serves (call : Call) (rdmaCtxs : List Id) (i : Nat)
  | threw
  | finished
  deriving DecidableEq

/-- The workers, as many as the flag of the storage node says. -/
structure Config (W : Type) where
  rkey : W → BitVec 32
  workerId : W → BitVec 64
  nodeId : W → BitVec 64

/--
`stage` says which events of an attempt were delivered, `pending` what a worker waits for, `conn` its
first and second connection, and `performed` lists the calls of `exchangeInitialMesssage`.
-/
structure State (W Id : Type) where
  cm : Cm Id
  stage : Id → Stage
  pending : W → Option Id
  conn : W → Bool → Option Id
  server : ServerPc Id
  servedConnections : Nat
  performed : List Id

inductive Act (W Id : Type) where
  | request (w : W) (id : Id)
  | established (w : W)
  | failed (w : W) (event : EventType)
  | disconnected (id : Id)
  | timewaitExit (id : Id)
  | check
  | copy
  | serve
  deriving DecidableEq

variable {W Id : Type}

namespace Cm

def init : Cm Id where
  connections _ := false
  context _ := .new
  incomingIds := []
  numberConnections := 0
  numberConnectionsEstablished := 0
  running := true

def getNumberIncomingConnections (cm : Cm Id) : Nat :=
  cm.numberConnectionsEstablished

def getIncomingConnections (cm : Cm Id) : List Id :=
  cm.incomingIds

/-- The end of the handler's loop. -/
def stop (cm : Cm Id) : Cm Id :=
  if cm.numberConnections = 0 then
    { cm with running := false }
  else
    cm

variable [DecidableEq Id]

/-- The cases of the switch; `response` is what the peer sends in `exchangeRdmaInfo`. -/
def switch (cm : Cm Id) (event : EventType) (id : Id) (response : RdmaInfo) : Option (Cm Id) :=
  match event with
  | .addrResolved | .routeResolved => some cm
  | .connectRequest =>
    some
      { cm with
        numberConnections := cm.numberConnections + 1
        context := Function.update cm.context id .new
        incomingIds := cm.incomingIds ++ [id] }
  | .established =>
    some
      { cm with
        context := Function.update cm.context id response.toContext
        numberConnectionsEstablished := cm.numberConnectionsEstablished + 1 }
  | .addrError | .routeError | .connectError | .unreachable | .rejected => some cm
  | .disconnected =>
    some
      { cm with
        numberConnections := cm.numberConnections - 1
        numberConnectionsEstablished := cm.numberConnectionsEstablished - 1 }
  | .deviceRemoval => some cm
  | .timewaitExit => some cm
  | .connectResponse | .multicastJoin | .multicastError | .addrChange => none

def connect (cm : Cm Id) (event : EventType) (id : Id) : Cm Id :=
  if event = .connectRequest then
    { cm with connections := Function.update cm.connections id true }
  else
    cm

/-- One iteration of `CM::handle`; `none` where the process ends. -/
def handle (cm : Cm Id) (event : EventType) (id : Id) (response : RdmaInfo) : Option (Cm Id) :=
  if cm.running ∧ (cm.connect event id).connections id then
    ((cm.connect event id).switch event id response).map stop
  else
    none

end Cm

def Config.ownInfo (x : Config W) (w : W) : RdmaInfo where
  rkey := x.rkey w
  type := .worker
  typeId := x.workerId w
  nodeId := x.nodeId w

def numConnections (W : Type) [Fintype W] (call : Call) : Nat :=
  match call with
  | .first => Fintype.card W
  | .second => 2 * Fintype.card W

def EventType.failure (event : EventType) : Bool :=
  match event with
  | .connectError | .unreachable | .rejected => true
  | _ => false

namespace State

def init : State W Id where
  cm := .init
  stage _ := .unused
  pending _ := none
  conn _ _ := none
  server := .waits .first
  servedConnections := 0
  performed := []

variable [DecidableEq W] [DecidableEq Id]

/--
Which connection a worker is to open: the second one after the first one's exchange of the initial
messages.
-/
def slot (s : State W Id) (w : W) : Option Bool :=
  match s.conn w false with
  | none => some false
  | some id => if id ∈ s.performed ∧ s.conn w true = none then some true else none

def deliver (s : State W Id) (event : EventType) (id : Id) (response : RdmaInfo) (stage : Stage)
    : Option (State W Id) :=
  (s.cm.handle event id response).map fun cm =>
    { s with cm, stage := Function.update s.stage id stage }

end State

variable [DecidableEq W] [DecidableEq Id] [Fintype W]

def step (x : Config W) : Step (State W Id) (Act W Id)
  | s, .request w id =>
    if s.stage id = .unused ∧ s.pending w = none ∧ (s.slot w).isSome then
      (s.deliver .connectRequest id (x.ownInfo w) .requested).map fun s =>
        { s with pending := Function.update s.pending w (some id) }
    else
      none
  | s, .established w =>
    match s.pending w, s.slot w with
    | some id, some b =>
      (s.deliver .established id (x.ownInfo w) .established).map fun s =>
        { s with
          pending := Function.update s.pending w none
          conn := Function.update s.conn w (Function.update (s.conn w) b (some id)) }
    | _, _ => none
  | s, .failed w event =>
    match s.pending w with
    | some id =>
      if event.failure then
        (s.deliver event id (x.ownInfo w) .failed).map fun s =>
          { s with pending := Function.update s.pending w none }
      else
        none
    | none => none
  | s, .disconnected id =>
    if s.stage id = .established then
      s.deliver .disconnected id ⟨0, .rdmaCm, 0, 0⟩ .disconnected
    else
      none
  | s, .timewaitExit id =>
    if s.stage id = .disconnected then
      s.deliver .timewaitExit id ⟨0, .rdmaCm, 0, 0⟩ .exited
    else
      none
  | s, .check =>
    match s.server with
    | .waits call =>
      if s.cm.getNumberIncomingConnections = numConnections W call then
        some { s with server := .passed call }
      else
        none
    | _ => none
  | s, .copy =>
    match s.server with
    | .passed call =>
      some { s with server := .serves call s.cm.getIncomingConnections s.servedConnections }
    | _ => none
  | s, .serve =>
    match s.server with
    | .serves call rdmaCtxs i =>
      match rdmaCtxs[i]? with
      | some id =>
        if (s.cm.context id).type = .worker then
          some
            { s with
              performed := s.performed ++ [id]
              server := .serves call rdmaCtxs (i + 1) }
        else
          some { s with server := .threw }
      | none =>
        some
          { s with
            servedConnections := rdmaCtxs.length
            server :=
              match call with
              | .first => .waits .second
              | .second => .finished }
    | _ => none

end CommunicationManager.Incoming

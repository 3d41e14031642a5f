import Mathlib.Data.Fintype.Card
import RdmaSync.CommunicationManager.Handshake

/-!
This module contains the bring-up of a cluster: the constructor of the workers, the event handlers of
the storage nodes, and `Storage::startAndConnect`.
-/

namespace Cluster

open Threads
open Rdma.Connection
open CommunicationManager
open CommunicationManager.Handshake (Phase Pc)

structure MemoryRegionDesc where
  start : BitVec 64
  sizeBytes : BitVec 64
  regionId : Nat
  deriving DecidableEq

structure MemoryRegions where
  offset : BitVec 64
  sizeBytes : BitVec 64
  deriving DecidableEq

abbrev maxRegions : Nat := 10

structure InitMessage where
  nodeId : BitVec 64
  threadId : BitVec 64
  numRegions : BitVec 64
  memRegions : Vector MemoryRegions maxRegions
  deriving DecidableEq

structure Storage where
  nodeId : BitVec 64
  rkey : BitVec 32
  catalog : List (String × MemoryRegionDesc)
  regionIds : (catalog.map fun it => it.2.regionId).Perm (List.range catalog.length)
  numRegions_lt : catalog.length < maxRegions

namespace Storage

/-- The next region, unless its name is taken or there are too many. -/
def registerMemoryRegion (s : Storage) (name : String) (buffer bytes : BitVec 64)
    : Option Storage :=
  if s.catalog.any fun it => it.1 == name then
    none
  else if h : s.catalog.length + 1 < maxRegions then
    some
      { s with
        catalog := s.catalog ++
          [(name, { start := buffer, sizeBytes := bytes, regionId := s.catalog.length })]
        regionIds := by
          simp only [List.map_append, List.map_cons, List.map_nil, List.length_append,
            List.length_singleton, List.range_succ]
          exact s.regionIds.append_right _
        numRegions_lt := by simpa using h }
  else
    none

def memRegions (s : Storage) (old : Vector MemoryRegions maxRegions)
    : Vector MemoryRegions maxRegions :=
  s.catalog.foldl
    (fun regions it =>
      regions.setIfInBounds it.2.regionId { offset := it.2.start, sizeBytes := it.2.sizeBytes })
    old

theorem memRegions_foldl_of_ne {l : List (String × MemoryRegionDesc)} {k : Nat}
    (hne : ∀ it ∈ l, it.2.regionId ≠ k) (regions : Vector MemoryRegions maxRegions)
    (hk : k < maxRegions)
    : (l.foldl (fun regions it => regions.setIfInBounds it.2.regionId
        { offset := it.2.start, sizeBytes := it.2.sizeBytes }) regions)[k] = regions[k] := by
  induction l generalizing regions with
  | nil => rfl
  | cons it l ih =>
    rw [List.foldl_cons, ih fun it' hit' => hne it' (List.mem_cons_of_mem _ hit')]
    exact Vector.getElem_setIfInBounds_ne _ (hne it List.mem_cons_self)

theorem memRegions_foldl_of_mem {l : List (String × MemoryRegionDesc)}
    (hnodup : (l.map fun it => it.2.regionId).Nodup) (regions : Vector MemoryRegions maxRegions)
    {it : String × MemoryRegionDesc} (hit : it ∈ l) (hk : it.2.regionId < maxRegions)
    : (l.foldl (fun regions it => regions.setIfInBounds it.2.regionId
        { offset := it.2.start, sizeBytes := it.2.sizeBytes }) regions)[it.2.regionId] =
        { offset := it.2.start, sizeBytes := it.2.sizeBytes } := by
  induction l generalizing regions with
  | nil => simp at hit
  | cons it' l ih =>
    rw [List.map_cons, List.nodup_cons] at hnodup
    rw [List.foldl_cons]
    rcases List.mem_cons.mp hit with rfl | hmem
    . rw [memRegions_foldl_of_ne]
      . exact Vector.getElem_setIfInBounds_self _
      . intro it' hit' heq
        exact hnodup.1 (List.mem_map.mpr ⟨it', hit', heq⟩)
    . exact ih hnodup.2 _ hmem

theorem getElem_memRegions (s : Storage) (old : Vector MemoryRegions maxRegions)
    {it : String × MemoryRegionDesc} (hit : it ∈ s.catalog) (hk : it.2.regionId < maxRegions)
    : (s.memRegions old)[it.2.regionId] =
        { offset := it.2.start, sizeBytes := it.2.sizeBytes } := by
  exact memRegions_foldl_of_mem (s.regionIds.nodup_iff.mpr List.nodup_range) old hit hk

def initServer (s : Storage) (old : InitMessage) : InitMessage where
  nodeId := s.nodeId
  threadId := 1000
  numRegions := .ofNat 64 s.catalog.length
  memRegions := s.memRegions old.memRegions

end Storage

structure Compute where
  nodeId : BitVec 64
  flagsWorker : BitVec 64
  rkey : BitVec 32

structure Config (W P : Type) where
  process : W → P
  compute : P → Compute
  workerId : W → BitVec 64
  storageNodes : Nat
  storage : Nat → Storage
  flagsWorker : Nat → Nat
  init : W → InitMessage
  initServer : Nat → InitMessage

/-- The constructor of a worker: two loops over the storage nodes. -/
inductive WorkerPc where
  | initiates (n : Nat)
  | connects (n : Nat)
  | exchangesInfo (n : Nat)
  | finishes (n : Nat)
  | exchanges (n : Nat)
  deriving DecidableEq

inductive ServerPc (W : Type) where
  | waits
  | serves (rdmaCtxs : List W) (i : Nat)
  | exchanges (rdmaCtxs : List W) (i : Nat)
  | threw
  | finished
  deriving DecidableEq

structure State (W P : Type) where
  worker : W → WorkerPc
  catalog : W → Nat → Option MemoryRegionDesc
  outgoingMut : P → Option W
  incomingIds : Nat → List W
  /-- The connection whose `exchangeRdmaInfo` the handler runs. -/
  handler : Nat → Option W
  numberConnectionsEstablished : Nat → Nat
  server : Nat → ServerPc W
  conn : W → Nat → Handshake.State InitMessage

inductive Act (W : Type) where
  /-- `rdma_connect`, under the mutex of the process. -/
  | initiate (w : W)
  | accept (n : Nat) (w : W)
  | connected (w : W)
  | initiated (w : W)
  | established (n : Nat) (w : W)
  | count (n : Nat)
  | allocate (w : W)
  | exchange (w : W)
  | insert (w : W)
  | copy (n : Nat)
  /-- The body of the loop up to `exchangeInitialMesssage`, or the end of the loop. -/
  | serve (n : Nat)
  | served (n : Nat)
  | poll (w : W) (n : Nat) (s : Side) (comp : Nat)
  | transfer (w : W) (n : Nat) (a : Transfer)
  deriving DecidableEq

variable {W P : Type}

namespace Config

def message (x : Config W P) (w : W) : InitMessage :=
  { x.init w with
    nodeId := (x.compute (x.process w)).nodeId
    threadId := x.workerId w + (x.compute (x.process w)).nodeId *
      (x.compute (x.process w)).flagsWorker }

def serverMessage (x : Config W P) (n : Nat) : InitMessage :=
  (x.storage n).initServer (x.initServer n)

def handshake (x : Config W P) (w : W) (n : Nat) : Handshake.Config InitMessage where
  ownInfo s :=
    match s with
    | .client =>
      { rkey := (x.compute (x.process w)).rkey
        type := .worker
        typeId := x.workerId w
        nodeId := (x.compute (x.process w)).nodeId }
    | .server => { rkey := (x.storage n).rkey, type := .rdmaCm, typeId := 0, nodeId := 0 }
  initialMessage s :=
    match s with
    | .client => x.message w
    | .server => x.serverMessage n

end Config

def catalogEntry (m : Option (Message InitMessage)) : Option MemoryRegionDesc :=
  match m with
  | some (.initialMessage msg) =>
    some
      { start := msg.memRegions[0].offset
        sizeBytes := msg.memRegions[0].sizeBytes
        regionId := 0 }
  | _ => none

/-- Inserting keeps an entry that is there. -/
def insertEntry (catalog : Nat → Option MemoryRegionDesc) (n : Nat)
    (entry : Option MemoryRegionDesc) : Nat → Option MemoryRegionDesc :=
  Function.update catalog n ((catalog n).or entry)

theorem catalogEntry_initServer {s : Storage} {old : InitMessage} {it : String × MemoryRegionDesc}
    (hit : it ∈ s.catalog) (hzero : it.2.regionId = 0)
    : catalogEntry (some (.initialMessage (s.initServer old))) = some it.2 := by
  obtain ⟨name, start, sizeBytes, regionId⟩ := it
  subst hzero
  have hregion := s.getElem_memRegions old.memRegions hit (Nat.succ_pos 9)
  simp only [catalogEntry, Storage.initServer]
  rw [hregion]

def Config.region (x : Config W P) (n : Nat) : Option MemoryRegionDesc :=
  catalogEntry (some (.initialMessage (x.serverMessage n)))

namespace State

def init : State W P where
  worker _ := .initiates 0
  catalog _ _ := none
  outgoingMut _ := none
  incomingIds _ := []
  handler _ := none
  numberConnectionsEstablished _ := 0
  server _ := .waits
  conn _ _ := Handshake.init

variable [DecidableEq W] [DecidableEq P]

def setConn (c : State W P) (w : W) (n : Nat) (t : Handshake.State InitMessage) : State W P :=
  { c with conn := Function.update c.conn w (Function.update (c.conn w) n t) }

def setWorker (c : State W P) (w : W) (pc : WorkerPc) : State W P :=
  { c with worker := Function.update c.worker w pc }

def setServer (c : State W P) (n : Nat) (pc : ServerPc W) : State W P :=
  { c with server := Function.update c.server n pc }

def setHandler (c : State W P) (n : Nat) (h : Option W) : State W P :=
  { c with handler := Function.update c.handler n h }

def setMut (c : State W P) (p : P) (w : Option W) : State W P :=
  { c with outgoingMut := Function.update c.outgoingMut p w }

def client (c : State W P) (w : W) (n : Nat) : Pc :=
  (c.conn w n).pc .client

def serving (c : State W P) (w : W) (n : Nat) : Pc :=
  (c.conn w n).pc .server

end State

variable [DecidableEq W] [DecidableEq P]

def onConn (x : Config W P) (c : State W P) (w : W) (n : Nat) (a : Handshake.Act InitMessage)
    : Option (State W P) :=
  (Handshake.step (x.handshake w n) (c.conn w n) a).map (c.setConn w n)

def step (x : Config W P) : Step (State W P) (Act W)
  | c, .initiate w =>
    match c.worker w with
    | .initiates n =>
      if n < x.storageNodes ∧ c.outgoingMut (x.process w) = none then
        some ((c.setMut (x.process w) (some w)).setWorker w (.connects n))
      else
        none
    | _ => none
  | c, .accept n w =>
    if c.worker w = .connects n ∧ c.handler n = none ∧ w ∉ c.incomingIds n then
      some { c with incomingIds := Function.update c.incomingIds n (c.incomingIds n ++ [w]) }
    else
      none
  | c, .connected w =>
    match c.worker w with
    | .connects n =>
      if w ∈ c.incomingIds n then
        onConn x (c.setWorker w (.exchangesInfo n)) w n (.exchange .client)
      else
        none
    | _ => none
  | c, .initiated w =>
    match c.worker w with
    | .exchangesInfo n =>
      if c.client w n = .calls .initialMessage then
        some ((c.setMut (x.process w) none).setWorker w (.initiates (n + 1)))
      else
        none
    | _ => none
  | c, .established n w =>
    if c.handler n = none ∧ w ∈ c.incomingIds n ∧ c.serving w n = .calls .rdmaInfo then
      onConn x (c.setHandler n (some w)) w n (.exchange .server)
    else
      none
  | c, .count n =>
    match c.handler n with
    | some w =>
      if c.serving w n = .calls .initialMessage then
        some
          { c.setHandler n none with
            numberConnectionsEstablished :=
              Function.update c.numberConnectionsEstablished n
                (c.numberConnectionsEstablished n + 1) }
      else
        none
    | none => none
  | c, .allocate w =>
    if c.worker w = .initiates x.storageNodes then
      some (c.setWorker w (.finishes 0))
    else
      none
  | c, .exchange w =>
    match c.worker w with
    | .finishes n =>
      if n < x.storageNodes then
        onConn x (c.setWorker w (.exchanges n)) w n (.exchange .client)
      else
        none
    | _ => none
  | c, .insert w =>
    match c.worker w with
    | .exchanges n =>
      if c.client w n = .returned then
        some
          { c.setWorker w (.finishes (n + 1)) with
            catalog := Function.update c.catalog w
              (insertEntry (c.catalog w) n
                (catalogEntry (((c.conn w n).ends .client).memory .applicationData))) }
      else
        none
    | _ => none
  | c, .copy n =>
    if n < x.storageNodes ∧ c.server n = .waits ∧
        c.numberConnectionsEstablished n = x.flagsWorker n then
      some (c.setServer n (.serves (c.incomingIds n) 0))
    else
      none
  | c, .serve n =>
    match c.server n with
    | .serves rdmaCtxs i =>
      match rdmaCtxs[i]? with
      | some w =>
        if ((c.conn w n).context .server).type = .worker then
          onConn x (c.setServer n (.exchanges rdmaCtxs i)) w n (.exchange .server)
        else
          some (c.setServer n .threw)
      | none => some (c.setServer n .finished)
    | _ => none
  | c, .served n =>
    match c.server n with
    | .exchanges rdmaCtxs i =>
      match rdmaCtxs[i]? with
      | some w =>
        if c.serving w n = .returned then
          some (c.setServer n (.serves rdmaCtxs (i + 1)))
        else
          none
      | none => none
    | _ => none
  | c, .poll w n s comp => onConn x c w n (.poll s comp)
  | c, .transfer w n a => onConn x c w n (.transfer a)

end Cluster

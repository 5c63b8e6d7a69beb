import RaftLabs.Shardctrler.StateMachine

/-! The replicated state of a shardkv group and the commands that its applier executes. -/
namespace RaftLabs.Shardkv
open Shardctrler

inductive Err where
  | ok | errNoKey | errWrongGroup | errWrongLeader | errTimeout | errNotReady | errOutDated
  deriving DecidableEq, Repr

inductive Status where
  | serving | pulling | bePulling | gc
  deriving DecidableEq, Repr

abbrev KV := String → Option String

structure Shard where
  kv : KV
  status : Status

def newShard : Shard := ⟨fun _ => none, .serving⟩

inductive Op where
  | put | append | get
  deriving DecidableEq, Repr

structure CommandArgs where
  key : String
  value : String
  op : Op
  clientId : ℕ
  commandId : ℕ
  deriving DecidableEq, Repr

structure CommandReply where
  err : Err
  value : String
  deriving DecidableEq, Repr

structure OperationInfo where
  maxAppliedCommandId : ℕ
  lastReply : CommandReply
  deriving DecidableEq, Repr

abbrev ShardId := Fin nShards

structure ShardOperationArgs where
  configNum : ℕ
  shardIds : List ShardId
  deriving DecidableEq, Repr

/-- The map of shards is the list of its entries in the order of its enumeration. -/
structure ShardOperationReply where
  configNum : ℕ
  shards : List (ShardId × KV)
  lastOperations : ℕ → Option OperationInfo

inductive Command where
  | operation (args : CommandArgs)
  | configuration (config : Config)
  | insertShards (reply : ShardOperationReply)
  | deleteShards (args : ShardOperationArgs)
  | emptyEntry

/-- The first byte of the key modulo the number of shards. -/
def key2shard (key : String) : ShardId :=
  match key.toList with
  | [] => 0
  | c :: _ => Fin.ofNat nShards ((String.utf8EncodeChar c).headD 0).toNat

structure ShardKV where
  gid : ℤ
  lastConfig : Config
  currentConfig : Config
  stateMachines : ShardId → Shard
  lastOperations : ℕ → Option OperationInfo

namespace ShardKV

/-- The state with which `StartServer` begins when there is no snapshot. -/
def start (gid : ℤ) : ShardKV :=
  ⟨gid, defaultConfig, defaultConfig, fun _ => newShard, fun _ => none⟩

def isDuplicateRequest (kv : ShardKV) (clientId commandId : ℕ) : Bool :=
  match kv.lastOperations clientId with
  | some opInfo => commandId ≤ opInfo.maxAppliedCommandId
  | none => false

def canServer (kv : ShardKV) (shardId : ShardId) : Prop :=
  kv.currentConfig.shards shardId = kv.gid ∧
    ((kv.stateMachines shardId).status = .serving ∨ (kv.stateMachines shardId).status = .gc)

instance (kv : ShardKV) (shardId : ShardId) : Decidable (kv.canServer shardId) :=
  inferInstanceAs (Decidable (_ ∧ _))

/-- The shards in a status that came from the group `gid`. -/
def getShardIdsByStatus (kv : ShardKV) (status : Status) (gid : ℤ) : List ShardId :=
  (List.finRange nShards).filter fun i =>
    (kv.stateMachines i).status = status ∧ kv.lastConfig.shards i = gid

/-- A write that is answered from the table of last operations. -/
def Skips (kv : ShardKV) (args : CommandArgs) : Prop :=
  args.op ≠ .get ∧ kv.isDuplicateRequest args.clientId args.commandId

instance (kv : ShardKV) (args : CommandArgs) : Decidable (kv.Skips args) :=
  inferInstanceAs (Decidable (_ ∧ _))

/-- The reply kept for a client; it is read only for a client that has one. -/
def lastReply (kv : ShardKV) (clientId : ℕ) : CommandReply :=
  ((kv.lastOperations clientId).map OperationInfo.lastReply).getD ⟨.ok, ""⟩

def applyLogToStateMachines (kv : ShardKV) (operation : CommandArgs) (shardId : ShardId) :
    Shard × CommandReply :=
  let shard := kv.stateMachines shardId
  match operation.op with
  | .put =>
    ({ shard with kv := Function.update shard.kv operation.key (some operation.value) }, ⟨.ok, ""⟩)
  | .append =>
    ({ shard with
      kv := Function.update shard.kv operation.key
        (some ((shard.kv operation.key).getD "" ++ operation.value)) }, ⟨.ok, ""⟩)
  | .get =>
    match shard.kv operation.key with
    | some value => (shard, ⟨.ok, value⟩)
    | none => (shard, ⟨.errNoKey, ""⟩)

def applyOperation (kv : ShardKV) (operation : CommandArgs) : ShardKV × CommandReply :=
  let shardId := key2shard operation.key
  if kv.canServer shardId then
    if kv.Skips operation then (kv, kv.lastReply operation.clientId)
    else
      let (shard, reply) := kv.applyLogToStateMachines operation shardId
      let kv := { kv with stateMachines := Function.update kv.stateMachines shardId shard }
      if operation.op ≠ .get then
        ({ kv with
          lastOperations := Function.update kv.lastOperations operation.clientId
            (some ⟨operation.commandId, reply⟩) }, reply)
      else (kv, reply)
  else (kv, ⟨.errWrongGroup, ""⟩)

/-- The status of a shard after `updateShardStatus`. -/
def nextStatus (kv : ShardKV) (nextConfig : Config) (i : ShardId) : Status :=
  if kv.currentConfig.shards i ≠ kv.gid ∧ nextConfig.shards i = kv.gid then
    if kv.currentConfig.shards i ≠ 0 then .pulling else (kv.stateMachines i).status
  else if kv.currentConfig.shards i = kv.gid ∧ nextConfig.shards i ≠ kv.gid then
    if nextConfig.shards i ≠ 0 then .bePulling else (kv.stateMachines i).status
  else (kv.stateMachines i).status

def updateShardStatus (kv : ShardKV) (nextConfig : Config) : ShardKV :=
  { kv with
    stateMachines := fun i => ⟨(kv.stateMachines i).kv, kv.nextStatus nextConfig i⟩ }

def applyConfiguration (kv : ShardKV) (nextConfig : Config) : ShardKV × CommandReply :=
  if nextConfig.num = kv.currentConfig.num + 1 then
    ({ kv.updateShardStatus nextConfig with
      lastConfig := kv.currentConfig
      currentConfig := nextConfig }, ⟨.ok, ""⟩)
  else (kv, ⟨.errOutDated, ""⟩)

/-- The pulled entries are written over the shard. -/
def mergeKV (shardData old : KV) : KV := fun key => (shardData key).or (old key)

/-- The loop over the pulled shards, which stops at the first one that is not `PULLING`. -/
def insertLoop (stateMachines : ShardId → Shard) :
    List (ShardId × KV) → ShardId → Shard
  | [] => stateMachines
  | (shardId, shardData) :: rest =>
    let shard := stateMachines shardId
    if shard.status = .pulling then
      insertLoop (Function.update stateMachines shardId ⟨mergeKV shardData shard.kv, .gc⟩) rest
    else stateMachines

/-- For each client the operation with the larger identifier is kept. -/
def mergeOperations (old new : ℕ → Option OperationInfo) (clientId : ℕ) : Option OperationInfo :=
  match new clientId, old clientId with
  | some operationInfo, some lastOperation =>
    if lastOperation.maxAppliedCommandId < operationInfo.maxAppliedCommandId then
      some operationInfo else some lastOperation
  | some operationInfo, none => some operationInfo
  | none, last => last

def applyInsertShards (kv : ShardKV) (shardsInfo : ShardOperationReply) :
    ShardKV × CommandReply :=
  if shardsInfo.configNum = kv.currentConfig.num then
    ({ kv with
      stateMachines := insertLoop kv.stateMachines shardsInfo.shards
      lastOperations := mergeOperations kv.lastOperations shardsInfo.lastOperations }, ⟨.ok, ""⟩)
  else (kv, ⟨.errOutDated, ""⟩)

/-- The loop over the shards to delete, which stops at the first one that is neither `GC` nor
`BEPULLING`. -/
def deleteLoop (stateMachines : ShardId → Shard) : List ShardId → ShardId → Shard
  | [] => stateMachines
  | shardId :: rest =>
    let shard := stateMachines shardId
    if shard.status = .gc then
      deleteLoop (Function.update stateMachines shardId { shard with status := .serving }) rest
    else if shard.status = .bePulling then
      deleteLoop (Function.update stateMachines shardId newShard) rest
    else stateMachines

/-- An outdated request is answered `OK` too. -/
def applyDeleteShards (kv : ShardKV) (shardsInfo : ShardOperationArgs) : ShardKV × CommandReply :=
  if shardsInfo.configNum = kv.currentConfig.num then
    ({ kv with stateMachines := deleteLoop kv.stateMachines shardsInfo.shardIds }, ⟨.ok, ""⟩)
  else (kv, ⟨.ok, ""⟩)

def applyEmptyEntry (kv : ShardKV) : ShardKV × CommandReply := (kv, ⟨.ok, ""⟩)

/-- The applier on a committed command. -/
def apply (kv : ShardKV) : Command → ShardKV × CommandReply
  | .operation args => kv.applyOperation args
  | .configuration nextConfig => kv.applyConfiguration nextConfig
  | .insertShards reply => kv.applyInsertShards reply
  | .deleteShards args => kv.applyDeleteShards args
  | .emptyEntry => kv.applyEmptyEntry

/-- The data that a replica gives away. -/
def shardsData (kv : ShardKV) (args : ShardOperationArgs) : ShardOperationReply where
  configNum := args.configNum
  shards := args.shardIds.map fun shardId => (shardId, (kv.stateMachines shardId).kv)
  lastOperations := kv.lastOperations

/-- A replica refuses with `ErrNotReady` before it has reached the configuration. -/
def getShardsData (kv : ShardKV) (args : ShardOperationArgs) : Except Err ShardOperationReply :=
  if kv.currentConfig.num < args.configNum then .error .errNotReady
  else .ok (kv.shardsData args)

end ShardKV

/-- The state of a group after a log of commands. -/
def replay (gid : ℤ) (log : List Command) : ShardKV :=
  log.foldl (fun kv command => (kv.apply command).1) (.start gid)

end RaftLabs.Shardkv

import RaftLabs.Shardkv.State

/-! Any number of shardkv groups that follow one sequence of configurations. A group is its
committed log; a replica has applied some prefix of it, and its leaders propose commands, which
may be committed at any later time or never. A call to another group is answered by a replica
that has applied any prefix of the log of that group. -/
namespace RaftLabs.Shardkv
open Basis Shardctrler

/-- The command is the deletion with these arguments. -/
def Command.Deletes (args : ShardOperationArgs) : Command → Prop
  | .deleteShards args' => args' = args
  | _ => False

instance (args : ShardOperationArgs) : (c : Command) → Decidable (c.Deletes args)
  | .deleteShards _ => inferInstanceAs (Decidable (_ = _))
  | .operation _ | .configuration _ | .insertShards _ | .emptyEntry => isFalse not_false

/-- A sequence of numbered configurations that starts with the default one. -/
structure History where
  config : ℕ → Config
  config_num : ∀ n, (config n).num = n
  config_zero : config 0 = defaultConfig

/-- The configurations of a controller, continued by its last assignment. -/
def History.ofStateMachine (cf : MemoryConfigStateMachine) (hcf : cf.Numbered) : History where
  config n := cf.configs[n]?.getD { cf.lastConfig with num := n }
  config_num n := by
    cases hc : cf.configs[n]? with
    | none => rfl
    | some c => exact hcf.num hc
  config_zero := by rw [hcf.zero, Option.getD_some]

/-- The configurations that the controller produces from a list of commands. -/
def History.produced (ops : List Shardctrler.Op) (hops : (Shardctrler.produced ops).isSome) :
    History :=
  .ofStateMachine ((Shardctrler.produced ops).get hops)
    (produced_numbered (Option.some_get hops).symm)

/-- The group that owns a shard in configuration `n`. -/
def History.owner (h : History) (n : ℕ) (i : ShardId) : ℤ := (h.config n).shards i

/-- A `DeleteShardsData` call in progress: its `Execute` has got `index` in the log of the
source group. -/
structure Collection where
  puller : ℤ
  source : ℤ
  args : ShardOperationArgs
  index : ℕ
  deriving DecidableEq

/-- `issued` holds the requests of the clerks. -/
structure System where
  logs : ℤ → List Command
  proposals : ℤ → List Command
  issued : List CommandArgs
  collections : List Collection

/-- The steps of the replicas of a group `gid`, with `p` the length of the prefix that the
replica has applied. A pull or a collection also names the group it calls and the prefix that
the answering replica has applied there. -/
inductive Action where
  | issue (args : CommandArgs)
  | command (gid : ℤ) (p : ℕ) (args : CommandArgs)
  | configurationAction (gid : ℤ) (p : ℕ)
  | migrationAction (gid : ℤ) (p : ℕ) (source : ℤ) (q : ℕ) (shardIds : List ShardId)
  | gcAction (gid : ℤ) (p : ℕ) (source : ℤ) (q : ℕ) (shardIds : List ShardId) (index : ℕ)
  | gcReply (k : ℕ)
  | checkEntryInCurrentTermAction (gid : ℤ)
  | commit (gid : ℤ) (k : ℕ)

namespace System

def init : System := ⟨fun _ => [], fun _ => [], [], []⟩

/-- The state of a group: the replay of its whole committed log. -/
def group (sys : System) (gid : ℤ) : ShardKV := replay gid (sys.logs gid)

/-- A replica that has applied the first `p` commands. -/
def replica (sys : System) (gid : ℤ) (p : ℕ) : ShardKV := replay gid ((sys.logs gid).take p)

def propose (sys : System) (gid : ℤ) (command : Command) : System :=
  { sys with
    proposals := Function.update sys.proposals gid (sys.proposals gid ++ [command]) }

/-- A clerk makes a request under an identifier that has not been used before. -/
def issue (sys : System) (args : CommandArgs) : Option System :=
  if ∀ a ∈ sys.issued, ¬ (a.clientId = args.clientId ∧ a.commandId = args.commandId) then
    some { sys with issued := sys.issued ++ [args] }
  else none

/-! The actions of a replica in a given state, which another one may answer, and the same ones
of replicas that have applied parts of their logs. -/

/-- A copy of a request reaches a replica, which proposes it unless it can answer at once. -/
def commandFrom (sys : System) (kv : ShardKV) (gid : ℤ) (args : CommandArgs) : Option System :=
  if args ∈ sys.issued ∧ ¬ kv.Skips args ∧ kv.canServer (key2shard args.key) then
    some (sys.propose gid (.operation args))
  else none

def command (sys : System) (gid : ℤ) (p : ℕ) (args : CommandArgs) : Option System :=
  sys.commandFrom (sys.replica gid p) gid args

/-- A replica none of whose shards is on the move proposes the next configuration. -/
def configurationActionFrom (h : History) (sys : System) (kv : ShardKV) (gid : ℤ) :
    Option System :=
  if ∀ i, (kv.stateMachines i).status = .serving then
    some (sys.propose gid (.configuration (h.config (kv.currentConfig.num + 1))))
  else none

def configurationAction (h : History) (sys : System) (gid : ℤ) (p : ℕ) : Option System :=
  sys.configurationActionFrom h (sys.replica gid p) gid

/-- A replica pulls the shards it lacks from `source`, in some order, and proposes what it
gets. -/
def migrationActionFrom (sys : System) (kv answering : ShardKV) (gid source : ℤ)
    (shardIds : List ShardId) : Option System :=
  if source ≠ 0 ∧ shardIds ≠ [] ∧ shardIds.Perm (kv.getShardIdsByStatus .pulling source) then
    match answering.getShardsData ⟨kv.currentConfig.num, shardIds⟩ with
    | .ok reply => some (sys.propose gid (.insertShards reply))
    | .error _ => none
  else none

def migrationAction (sys : System) (gid : ℤ) (p : ℕ) (source : ℤ) (q : ℕ)
    (shardIds : List ShardId) : Option System :=
  sys.migrationActionFrom (sys.replica gid p) (sys.replica source q) gid source shardIds

/-- A replica asks `source` to delete the shards that it has pulled. `DeleteShardsData` answers
`OK` at once when the answering replica has not reached the configuration, and executes the
deletion otherwise. -/
def gcActionFrom (sys : System) (kv answering : ShardKV) (gid source : ℤ) (q : ℕ)
    (shardIds : List ShardId) (index : ℕ) : Option System :=
  let args : ShardOperationArgs := ⟨kv.currentConfig.num, shardIds⟩
  if source ≠ 0 ∧ shardIds ≠ [] ∧ shardIds.Perm (kv.getShardIdsByStatus .gc source) ∧
      q ≤ index then
    if answering.currentConfig.num < args.configNum then
      some (sys.propose gid (.deleteShards args))
    else
      some { sys.propose source (.deleteShards args) with
        collections := sys.collections ++ [⟨gid, source, args, index⟩] }
  else none

def gcAction (sys : System) (gid : ℤ) (p : ℕ) (source : ℤ) (q : ℕ) (shardIds : List ShardId)
    (index : ℕ) : Option System :=
  sys.gcActionFrom (sys.replica gid p) (sys.replica source q) gid source q shardIds index

/-- The `Execute` of a deletion returns with the reply to the command at its index; on `OK` the
puller proposes the deletion in its own group. -/
def gcReplyFrom (sys : System) (answering : Collection → ShardKV) (k : ℕ) : Option System := do
  let c ← sys.collections[k]?
  let command ← (sys.logs c.source)[c.index]?
  if ((answering c).apply command).2.err = .ok then
    some { sys.propose c.puller (.deleteShards c.args) with
      collections := sys.collections.eraseIdx k }
  else none

def gcReply (sys : System) (k : ℕ) : Option System :=
  sys.gcReplyFrom (fun c => sys.replica c.source c.index) k

/-- A proposal of a group is committed. No group has the identifier 0. -/
def commit (sys : System) (gid : ℤ) (k : ℕ) : Option System := do
  let command ← (sys.proposals gid)[k]?
  if gid ≠ 0 then
    some { sys with logs := Function.update sys.logs gid (sys.logs gid ++ [command]) }
  else none

def step (h : History) (sys : System) : Action → Option System
  | .issue args => sys.issue args
  | .command gid p args => sys.command gid p args
  | .configurationAction gid p => sys.configurationAction h gid p
  | .migrationAction gid p source q shardIds => sys.migrationAction gid p source q shardIds
  | .gcAction gid p source q shardIds index => sys.gcAction gid p source q shardIds index
  | .gcReply k => sys.gcReply k
  | .checkEntryInCurrentTermAction gid => some (sys.propose gid .emptyEntry)
  | .commit gid k => sys.commit gid k

section Inversion
variable {h : History} {sys sys' : System} {gid source : ℤ} {p q index k : ℕ}
  {shardIds : List ShardId}

theorem of_migrationAction (hs : sys.migrationAction gid p source q shardIds = some sys') :
    shardIds ≠ [] ∧ shardIds.Perm ((sys.replica gid p).getShardIdsByStatus .pulling source) ∧
      (sys.replica gid p).currentConfig.num ≤ (sys.replica source q).currentConfig.num ∧
      sys' = sys.propose gid (.insertShards
        ((sys.replica source q).shardsData ⟨(sys.replica gid p).currentConfig.num, shardIds⟩)) := by
  simp only [migrationAction, migrationActionFrom, ShardKV.getShardsData] at hs
  split at hs
  case isFalse => cases hs
  case isTrue hcond =>
    obtain ⟨-, hne, hperm⟩ := hcond
    by_cases hready : (sys.replica source q).currentConfig.num <
        (sys.replica gid p).currentConfig.num
    · rw [if_pos hready] at hs
      cases hs
    · rw [if_neg hready] at hs
      exact ⟨hne, hperm, not_lt.mp hready, (Option.some.inj hs).symm⟩

/-- A collection is answered at once, or its deletion is proposed in the source group. -/
theorem of_gcAction (hs : sys.gcAction gid p source q shardIds index = some sys') :
    shardIds ≠ [] ∧ shardIds.Perm ((sys.replica gid p).getShardIdsByStatus .gc source) ∧
      q ≤ index ∧
      (((sys.replica source q).currentConfig.num < (sys.replica gid p).currentConfig.num ∧
        sys' = sys.propose gid (.deleteShards ⟨(sys.replica gid p).currentConfig.num, shardIds⟩)) ∨
      ((sys.replica gid p).currentConfig.num ≤ (sys.replica source q).currentConfig.num ∧
        sys' = { sys.propose source
            (.deleteShards ⟨(sys.replica gid p).currentConfig.num, shardIds⟩) with
          collections := sys.collections ++
            [⟨gid, source, ⟨(sys.replica gid p).currentConfig.num, shardIds⟩, index⟩] })) := by
  simp only [gcAction, gcActionFrom] at hs
  split at hs
  case isFalse => cases hs
  case isTrue hcond =>
    obtain ⟨-, hne, hperm, hq⟩ := hcond
    refine ⟨hne, hperm, hq, ?_⟩
    split at hs
    case isTrue hearly => exact Or.inl ⟨hearly, (Option.some.inj hs).symm⟩
    case isFalse hready => exact Or.inr ⟨not_lt.mp hready, (Option.some.inj hs).symm⟩

theorem of_gcReply (hs : sys.gcReply k = some sys') :
    ∃ c command, sys.collections[k]? = some c ∧ (sys.logs c.source)[c.index]? = some command ∧
      sys' = { sys.propose c.puller (.deleteShards c.args) with
        collections := sys.collections.eraseIdx k } := by
  obtain ⟨c, hc, hs⟩ := Option.bind_eq_some_iff.mp hs
  obtain ⟨command, hcommand, hs⟩ := Option.bind_eq_some_iff.mp hs
  obtain ⟨-, rfl⟩ := of_guarded hs
  exact ⟨c, command, hc, hcommand, rfl⟩

theorem of_commit (hs : sys.commit gid k = some sys') :
    ∃ command ∈ sys.proposals gid, gid ≠ 0 ∧
      sys' = { sys with logs := Function.update sys.logs gid (sys.logs gid ++ [command]) } := by
  obtain ⟨command, hc, hs⟩ := Option.bind_eq_some_iff.mp hs
  obtain ⟨hg, rfl⟩ := of_guarded hs
  exact ⟨command, List.mem_of_getElem? hc, hg, rfl⟩

end Inversion

/-- `DeleteShardsData` is answered by a replica that has not reached the configuration. -/
def AnswersEarly (sys : System) : Action → Prop
  | .gcAction gid p source q _ _ =>
    (sys.replica source q).currentConfig.num < (sys.replica gid p).currentConfig.num
  | _ => False

instance (sys : System) : (a : Action) → Decidable (sys.AnswersEarly a)
  | .gcAction _ _ _ _ _ _ => inferInstanceAs (Decidable (_ < _))
  | .issue _ | .command _ _ _ | .configurationAction _ _ | .migrationAction _ _ _ _ _ | .gcReply _
  | .checkEntryInCurrentTermAction _ | .commit _ _ => isFalse not_false

/-- The call and the command to which its `Execute` gets the reply. -/
def collectionReply (sys : System) (k : ℕ) : Option (Collection × Command) := do
  let c ← sys.collections[k]?
  let command ← (sys.logs c.source)[c.index]?
  some (c, command)

/-- The `Execute` of a deletion returns with the reply to a command that is not its own. -/
def Misroutes (sys : System) : Action → Prop
  | .gcReply k =>
    match sys.collectionReply k with
    | some (c, command) => ¬ command.Deletes c.args
    | none => False
  | _ => False

instance (sys : System) : (a : Action) → Decidable (sys.Misroutes a)
  | .gcReply k =>
    match hk : sys.collectionReply k with
    | some (c, command) =>
      decidable_of_iff (¬ command.Deletes c.args) (by simp [Misroutes, hk])
    | none => isFalse (by simp [Misroutes, hk])
  | .issue _ | .command _ _ _ | .configurationAction _ _ | .migrationAction _ _ _ _ _
  | .gcAction _ _ _ _ _ _ | .checkEntryInCurrentTermAction _ | .commit _ _ => isFalse not_false

/-- A run from the initial state all of whose steps satisfy `P`. -/
structure Run (h : History) (P : System → Action → Prop) (r : ℕ → System) : Prop where
  init : r 0 = init
  steps : IsRun (step h) P r

end System

end RaftLabs.Shardkv

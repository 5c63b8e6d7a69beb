import RaftLabs.Porcupine.Search

/-! The key/value model of package `models`: a history is cut into one part for each key, and
each part is checked against a single string. -/
namespace RaftLabs.Models
open Basis Porcupine

/-- The operation 0 is a get, 1 is a put, and any other one is an append. -/
structure KvInput where
  op : UInt8
  key : String
  value : String
  deriving DecidableEq, Repr

structure KvOutput where
  value : String
  deriving DecidableEq, Repr

abbrev KvOperation := Porcupine.Operation KvInput KvOutput

/-- The loop of `Partition` that fills the map. -/
def groupByKey (history : List KvOperation) : String → List KvOperation :=
  history.foldl (fun m v => Function.update m v.input.key (m v.input.key ++ [v])) fun _ => []

/-- The keys of the map, which are sorted. -/
def kvKeys (history : List KvOperation) : List String :=
  (history.map fun v => v.input.key).dedup.insertionSort (· ≤ ·)

def kvPartition (history : List KvOperation) : List (List KvOperation) :=
  let m := groupByKey history
  (kvKeys history).map m

def kvStep (st : String) (inp : KvInput) (out : KvOutput) : Bool × String :=
  if inp.op = 0 then (out.value = st, st)
  else if inp.op = 1 then (true, inp.value)
  else (true, st ++ inp.value)

def kvModel : Model String KvInput KvOutput where
  partition := some kvPartition
  init := ""
  step := kvStep

/-- The object that all keys make together. -/
def kvStore : SeqSpec (String → String) KvInput KvOutput :=
  (fillDefault kvModel).spec.product KvInput.key

theorem kvModel_lawful : (fillDefault kvModel).Lawful := fillDefault_lawful rfl

theorem groupByKey_eq (history : List KvOperation) (k : String) :
    groupByKey history k = atKey KvInput.key k history := by
  have hloop : ∀ m : String → List KvOperation,
      history.foldl (fun m v => Function.update m v.input.key (m v.input.key ++ [v])) m k =
        m k ++ atKey KvInput.key k history := by
    induction history with
    | nil => simp [atKey]
    | cons v history ih =>
      intro m
      rw [List.foldl_cons, ih]
      by_cases hk : v.input.key = k
      · subst hk
        simp [atKey]
      · rw [Function.update_of_ne (Ne.symm hk)]
        simp [atKey, hk]
  exact (hloop fun _ => []).trans (List.nil_append _)

theorem mem_kvKeys {history : List KvOperation} {k : String} :
    k ∈ kvKeys history ↔ ∃ v ∈ history, v.input.key = k := by
  rw [kvKeys, List.mem_insertionSort, List.mem_dedup, List.mem_map]

theorem mem_kvPartition {history part : List KvOperation} :
    part ∈ kvPartition history ↔
      ∃ k, (∃ v ∈ history, v.input.key = k) ∧ part = atKey KvInput.key k history := by
  simp only [kvPartition, List.mem_map, mem_kvKeys]
  constructor
  · rintro ⟨k, hk, rfl⟩
    exact ⟨k, hk, groupByKey_eq history k⟩
  · rintro ⟨k, hk, rfl⟩
    exact ⟨k, hk, groupByKey_eq history k⟩

/-- Every operation is in one part, so each part is well formed if the history is. -/
theorem kvPartition_subset {history part : List KvOperation}
    (h : part ∈ kvPartition history) {v : KvOperation} (hv : v ∈ part) : v ∈ history := by
  obtain ⟨k, -, rfl⟩ := mem_kvPartition.mp h
  exact (List.mem_filter.mp hv).1

/-- The parts are linearizable, each against one string, if and only if the whole history is
against the whole store. -/
theorem kvPartition_linearizable_iff {history : List KvOperation}
    (hwf : ∀ v ∈ history, v.call ≤ v.ret) :
    (∀ part ∈ kvPartition history, (fillDefault kvModel).spec.Linearizable part) ↔
      kvStore.Linearizable history := by
  rw [kvStore, SeqSpec.product_linearizable_iff hwf]
  constructor
  · intro h k
    by_cases hk : ∃ v ∈ history, v.input.key = k
    · exact h _ (mem_kvPartition.mpr ⟨k, hk, rfl⟩)
    · have hnil : atKey KvInput.key k history = [] := by
        refine List.filter_eq_nil_iff.mpr fun v hv hkey => hk ⟨v, hv, ?_⟩
        exact of_decide_eq_true hkey
      rw [hnil]
      exact ⟨[], List.Perm.nil, List.Pairwise.nil, rfl⟩
  · rintro h part hpart
    obtain ⟨k, -, rfl⟩ := mem_kvPartition.mp hpart
    exact h k

end RaftLabs.Models

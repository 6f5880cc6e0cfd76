import FioRelic.Relational.Null
import Mathlib.Logic.Function.Basic
import Mathlib.Data.List.Nodup

/-! Rows as the graph of a finite map. A row has a key and holds a value; one row is inserted
under a new key, or rewritten under its own, or rows are removed by key and value. -/
namespace FioRelic.Relational

section Maps
variable {κ ν : Type}

def drop (m : κ → Option ν) (gone : κ → ν → Bool) : κ → Option ν := fun k => (m k).filter fun v => !gone k v

theorem dropSome {m : κ → Option ν} {gone : κ → ν → Bool} {k : κ} {v : ν} :
    drop m gone k = some v ↔ m k = some v ∧ gone k v = false := by
  simp [drop, Option.filter_eq_some_iff]

variable [DecidableEq κ]

def put (m : κ → Option ν) (k : κ) (v : ν) : κ → Option ν := Function.update m k (some v)

theorem putOther {m : κ → Option ν} {k k' : κ} (other : k' ≠ k) (v : ν) : put m k v k' = m k' :=
  Function.update_of_ne other _ _

end Maps

structure Graph {ρ κ ν : Type} (key : ρ → Option κ) (value : ρ → ν) (rows : List ρ) (m : κ → Option ν) :
    Prop where
  keyed : ∀ r ∈ rows, ∃ k, key r = some k
  once : (rows.map key).Nodup
  reads : ∀ k v, m k = some v ↔ ∃ r ∈ rows, key r = some k ∧ value r = v

namespace Graph
variable {ρ κ ν : Type} {key : ρ → Option κ} {value : ρ → ν} {rows : List ρ} {m : κ → Option ν}

theorem nil : Graph key value [] fun _ => none where
  keyed := by simp
  once := List.nodup_nil
  reads := by simp

theorem sameRow (graph : Graph key value rows m) {r r' : ρ} (mem : r ∈ rows) (mem' : r' ∈ rows)
    (same : key r = key r') : r = r' := List.inj_on_of_nodup_map graph.once mem mem' same

section Operations
variable [DecidableEq κ]

theorem insert (graph : Graph key value rows m) {r : ρ} {k : κ} (own : key r = some k)
    (fresh : ∀ r' ∈ rows, key r' ≠ some k) : Graph key value (rows ++ [r]) (put m k (value r)) where
  keyed := by
    intro r' mem
    rcases List.mem_append.mp mem with old | new
    · exact graph.keyed r' old
    · rw [List.mem_singleton.mp new]
      exact ⟨k,own⟩
  once := by
    rw [List.map_append, List.map_singleton, own]
    refine List.nodup_append.mpr ⟨graph.once,List.nodup_singleton _,fun x listed y new same => ?_⟩
    obtain ⟨r',mem,rfl⟩ := List.mem_map.mp listed
    exact fresh r' mem (same.trans (List.mem_singleton.mp new))
  reads := by
    intro k' v
    by_cases here : k' = k
    · subst here
      rw [put, Function.update_self]
      constructor
      · intro same
        exact ⟨r,List.mem_append_right _ (List.mem_singleton.mpr rfl),own,Option.some.inj same⟩
      · rintro ⟨r',mem,own',rfl⟩
        rcases List.mem_append.mp mem with old | new
        · exact absurd own' (fresh r' old)
        · rw [List.mem_singleton.mp new]
    · rw [putOther here, graph.reads]
      constructor
      · rintro ⟨r',mem,holds⟩
        exact ⟨r',List.mem_append_left _ mem,holds⟩
      · rintro ⟨r',mem,own',holds⟩
        rcases List.mem_append.mp mem with old | new
        · exact ⟨r',old,own',holds⟩
        · rw [List.mem_singleton.mp new, own] at own'
          exact absurd (Option.some.inj own').symm here

theorem assign (graph : Graph key value rows m) {r : ρ} {k : κ} {f : ρ → ρ} (mem : r ∈ rows) (own : key r = some k)
    (kept : ∀ r ∈ rows, key (f r) = key r) (held : ∀ r' ∈ rows, key r' ≠ some k → f r' = r') :
    Graph key value (rows.map f) (put m k (value (f r))) where
  keyed := by
    intro r' listed
    obtain ⟨old,stored,rfl⟩ := List.mem_map.mp listed
    rw [kept old stored]
    exact graph.keyed old stored
  once := by
    rw [List.map_map, List.map_congr_left (f := key ∘ f) (g := key) fun r' stored => kept r' stored]
    exact graph.once
  reads := by
    intro k' v
    have moved : (∃ r' ∈ rows.map f, key r' = some k' ∧ value r' = v) ↔
        ∃ r' ∈ rows, key r' = some k' ∧ value (f r') = v := by
      constructor
      · rintro ⟨_,listed,own',holds⟩
        obtain ⟨old,stored,rfl⟩ := List.mem_map.mp listed
        exact ⟨old,stored,(kept old stored).symm.trans own',holds⟩
      · rintro ⟨old,stored,own',holds⟩
        exact ⟨f old,List.mem_map_of_mem stored,(kept old stored).trans own',holds⟩
    rw [moved]
    by_cases here : k' = k
    · subst here
      rw [put, Function.update_self]
      constructor
      · intro same
        exact ⟨r,mem,own,Option.some.inj same⟩
      · rintro ⟨r',stored,own',rfl⟩
        rw [graph.sameRow stored mem (own'.trans own.symm)]
    · rw [putOther here, graph.reads]
      refine exists_congr fun r' => and_congr_right fun stored => and_congr_right fun own' => ?_
      rw [held r' stored fun same => here (Option.some.inj (own'.symm.trans same))]

end Operations

theorem filter (graph : Graph key value rows m) {p : ρ → Bool} {gone : κ → ν → Bool}
    (alike : ∀ r ∈ rows, ∀ k, key r = some k → p r = gone k (value r)) :
    Graph key value (rows.filter fun r => !p r) (drop m gone) where
  keyed := fun r mem => graph.keyed r (List.mem_filter.mp mem).1
  once := graph.once.sublist (List.filter_sublist.map key)
  reads := by
    intro k v
    rw [dropSome, graph.reads]
    constructor
    · rintro ⟨⟨r,mem,own,rfl⟩,spared⟩
      exact ⟨r,List.mem_filter.mpr ⟨mem,by rw [alike r mem k own, spared]; rfl⟩,own,rfl⟩
    · rintro ⟨r,listed,own,rfl⟩
      obtain ⟨mem,spared⟩ := List.mem_filter.mp listed
      refine ⟨⟨r,mem,own,rfl⟩,?_⟩
      rw [← alike r mem k own]
      simpa using spared

theorem perm (graph : Graph key value rows m) {rows' : List ρ} (same : rows.Perm rows') : Graph key value rows' m where
  keyed := fun r mem => graph.keyed r (same.mem_iff.mpr mem)
  once := (same.map key).nodup_iff.mp graph.once
  reads := by
    intro k v
    simp only [graph.reads, same.mem_iff]

theorem congr (graph : Graph key value rows m) {key' : ρ → Option κ} (same : ∀ r ∈ rows, key' r = key r) :
    Graph key' value rows m where
  keyed := fun r mem => (same r mem).symm ▸ graph.keyed r mem
  once := by
    rw [List.map_congr_left same]
    exact graph.once
  reads := by
    intro k v
    rw [graph.reads]
    refine exists_congr fun r => and_congr_right fun mem => ?_
    rw [same r mem]

theorem mapped {f : ρ → ρ} (keys : ∀ r, key (f r) = key r) (values : ∀ r, value (f r) = value r) :
    Graph key value (rows.map f) m ↔ Graph key value rows m := by
  have once : ((rows.map f).map key) = rows.map key := by
    rw [List.map_map]
    exact List.map_congr_left fun r _ => keys r
  have reads : ∀ k v, (∃ r ∈ rows.map f, key r = some k ∧ value r = v) ↔ ∃ r ∈ rows, key r = some k ∧ value r = v := by
    intro k v
    constructor
    · rintro ⟨_,listed,own,holds⟩
      obtain ⟨r,mem,rfl⟩ := List.mem_map.mp listed
      exact ⟨r,mem,(keys r).symm.trans own,(values r).symm.trans holds⟩
    · rintro ⟨r,mem,own,holds⟩
      exact ⟨f r,List.mem_map_of_mem mem,(keys r).trans own,(values r).trans holds⟩
  constructor
  · intro graph
    exact ⟨fun r mem => keys r ▸ graph.keyed (f r) (List.mem_map_of_mem mem),once ▸ graph.once,
      fun k v => (graph.reads k v).trans (reads k v)⟩
  · intro graph
    refine ⟨fun r' listed => ?_,once.symm ▸ graph.once,fun k v => (graph.reads k v).trans (reads k v).symm⟩
    obtain ⟨r,mem,rfl⟩ := List.mem_map.mp listed
    exact (keys r).symm ▸ graph.keyed r mem

end Graph
end FioRelic.Relational

import Mathlib
import FioRelic.Relational.Client

/-! A table of maxima kept by upserts, next to the entries it summarises. Nothing here
names a schema. -/
namespace FioRelic.Relational
section Upserts
variable {ρ κ : Type} [DecidableEq κ] {key : ρ → κ} {rows new : List ρ} {row x : ρ}

theorem upsertMem : x ∈ upsert key rows row ↔ x = row ∨ x ∈ rows ∧ key x ≠ key row := by
  unfold upsert
  split
  · rename_i hit
    obtain ⟨r,stored,same⟩ := List.any_eq_true.mp hit
    rw [List.mem_map]
    constructor
    · rintro ⟨y,mem,rfl⟩
      split
      · exact Or.inl rfl
      · rename_i apart
        exact Or.inr ⟨mem,apart⟩
    · rintro (rfl | ⟨mem,apart⟩)
      · exact ⟨r,stored,if_pos (of_decide_eq_true same)⟩
      · exact ⟨x,mem,if_neg apart⟩
  · rename_i miss
    rw [List.mem_append, List.mem_singleton]
    constructor
    · rintro (old | own)
      · exact Or.inr ⟨old,fun same => miss (List.any_eq_true.mpr ⟨x,old,decide_eq_true same⟩)⟩
      · exact Or.inl own
    · rintro (own | ⟨old,_⟩)
      · exact Or.inr own
      · exact Or.inl old

theorem upsertBatchMem (mem : x ∈ upsertBatch key rows new) :
    (x ∈ rows ∧ key x ∉ new.map key) ∨ (new.filter fun r => decide (key r = key x)).getLast? = some x := by
  induction new generalizing rows with
  | nil => exact Or.inl ⟨mem,List.not_mem_nil⟩
  | cons row rest ih =>
    rcases ih mem with ⟨kept,absent⟩ | last
    · rcases upsertMem.mp kept with rfl | ⟨old,apart⟩
      · right
        have none : (rest.filter fun r => decide (key r = key x)) = [] := by
          rw [List.filter_eq_nil_iff]
          intro r mem same
          exact absent (List.mem_map.mpr ⟨r,mem,of_decide_eq_true same⟩)
        simp [none]
      · left
        refine ⟨old,?_⟩
        rw [List.map_cons, List.mem_cons]
        rintro (same | later)
        · exact apart same
        · exact absent later
    · right
      rw [List.filter_cons]
      split
      · rw [List.getLast?_cons, last]
        rfl
      · exact last

theorem upsertBatchKeys {k : κ} (named : k ∈ rows.map key ∨ k ∈ new.map key) : k ∈ (upsertBatch key rows new).map key := by
  induction new generalizing rows with
  | nil => exact named.resolve_right List.not_mem_nil
  | cons row rest ih =>
    apply ih
    have own : key row ∈ (upsert key rows row).map key := List.mem_map_of_mem (upsertMem.mpr (Or.inl rfl))
    rcases named with old | listed
    · left
      obtain ⟨r,mem,rfl⟩ := List.mem_map.mp old
      by_cases same : key r = key row
      · exact same ▸ own
      · exact List.mem_map_of_mem (upsertMem.mpr (Or.inr ⟨mem,same⟩))
    · rcases List.mem_cons.mp listed with rfl | later
      · exact Or.inl own
      · exact Or.inr later

end Upserts

section Maxima
variable {κ ν : Type} [LinearOrder ν] {entries old new less : List (κ × ν)} {a : κ} {k : ν}

def Largest (recorded : List (κ × ν)) (a : κ) (k : ν) : Prop := (a,k) ∈ recorded ∧ ∀ k', (a,k') ∈ recorded → k' ≤ k

structure Tracks (entries recorded : List (κ × ν)) : Prop where
  held : ∀ a, a ∈ recorded.map Prod.fst → a ∈ entries.map Prod.fst
  largest : ∀ a k, (a,k) ∈ entries → Largest recorded a k

theorem Tracks.congr (tracks : Tracks entries old) (same : ∀ e, e ∈ old ↔ e ∈ new) : Tracks entries new where
  held := by
    intro a named
    obtain ⟨e,mem,rfl⟩ := List.mem_map.mp named
    exact tracks.held e.1 (List.mem_map_of_mem ((same e).mpr mem))
  largest := by
    intro a k mem
    obtain ⟨recorded,top⟩ := tracks.largest a k mem
    exact ⟨(same _).mp recorded,fun k' later => top k' ((same _).mpr later)⟩

theorem Tracks.send [DecidableEq κ] {batch : List (κ × ν)} (tracks : Tracks entries old)
    (largest : ∀ a k, (a,k) ∈ batch → Largest (old ++ new) a k)
    (named : ∀ a, a ∈ new.map Prod.fst → a ∈ batch.map Prod.fst) :
    Tracks (upsertBatch Prod.fst entries batch) (old ++ new) where
  held := by
    intro a recorded
    rw [List.map_append, List.mem_append] at recorded
    exact upsertBatchKeys (recorded.imp (tracks.held a) (named a))
  largest := by
    intro a k mem
    rcases upsertBatchMem mem with ⟨kept,absent⟩ | last
    · obtain ⟨recorded,top⟩ := tracks.largest a k kept
      refine ⟨List.mem_append_left _ recorded,fun k' later => ?_⟩
      rcases List.mem_append.mp later with before | brought
      · exact top k' before
      · exact absurd (named a (List.mem_map.mpr ⟨_,brought,rfl⟩)) absent
    · exact largest a k (List.mem_filter.mp (List.mem_of_getLast? last)).1

theorem Tracks.cut (tracks : Tracks entries old) (sub : less ⊆ old)
    (outlived : ∀ a k, (a,k) ∈ old → ∃ k', k ≤ k' ∧ (a,k') ∈ less) : Tracks entries less where
  held := by
    intro a named
    obtain ⟨e,mem,rfl⟩ := List.mem_map.mp named
    exact tracks.held e.1 (List.mem_map_of_mem (sub mem))
  largest := by
    intro a k mem
    obtain ⟨recorded,top⟩ := tracks.largest a k mem
    obtain ⟨k',le,kept⟩ := outlived a k recorded
    have same : k' = k := le_antisymm (top k' (sub kept)) le
    exact ⟨same ▸ kept,fun other later => top other (sub later)⟩

end Maxima
end FioRelic.Relational

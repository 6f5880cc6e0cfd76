import Mathlib.Data.Int.Interval
import Mathlib.Data.List.Basic

/-! The rank of a key among the keys a table holds: how many of them come up to it. -/
namespace FioRelic.Relational

def rankIn (ks : List Int) (k : Int) : Int := ks.countP fun j => decide (j ≤ k)

section
variable {ks : List Int} {j k n : Int}

theorem rankInCons {i : Int} : rankIn (i :: ks) k = rankIn ks k + if i ≤ k then 1 else 0 := by
  unfold rankIn
  rw [List.countP_cons]
  by_cases le : i ≤ k <;> simp [le]

theorem rankInMono (le : j ≤ k) : rankIn ks j ≤ rankIn ks k := by
  induction ks with
  | nil => exact Int.le_refl _
  | cons i rest ih =>
    rw [rankInCons, rankInCons]
    split <;> split <;> omega

theorem rankInStrict (less : j < k) (mem : k ∈ ks) : rankIn ks j < rankIn ks k := by
  induction ks with
  | nil => exact absurd mem List.not_mem_nil
  | cons i rest ih =>
    rw [rankInCons, rankInCons]
    rcases List.mem_cons.mp mem with rfl | later
    · have := @rankInMono rest j k (Int.le_of_lt less)
      rw [if_neg (by omega), if_pos (Int.le_refl _)]
      omega
    · have := ih later
      split <;> split <;> omega

theorem rankInAll (bounded : ∀ i ∈ ks, i ≤ k) : rankIn ks k = ks.length := by
  unfold rankIn
  rw [List.countP_eq_length.mpr fun i mem => decide_eq_true (bounded i mem)]

theorem rankInNone (above : ∀ i ∈ ks, k < i) : rankIn ks k = 0 := by
  unfold rankIn
  rw [List.countP_eq_zero.mpr fun i mem => by simpa using above i mem, Int.natCast_zero]

theorem rankInPos (mem : k ∈ ks) : 1 ≤ rankIn ks k := by
  have above := rankInStrict (Int.sub_one_lt_of_le (Int.le_refl k)) mem
  have nonneg : 0 ≤ rankIn ks (k - 1) := Int.natCast_nonneg _
  omega

theorem rankInBound (nodup : ks.Nodup) (positive : ∀ i ∈ ks, 1 ≤ i) (nonneg : 0 ≤ k) : rankIn ks k ≤ k := by
  unfold rankIn
  have within : (ks.filter fun i => decide (i ≤ k)).toFinset ⊆ Finset.Icc 1 k := by
    intro i mem
    obtain ⟨inKeys,le⟩ := List.mem_filter.mp (List.mem_toFinset.mp mem)
    exact Finset.mem_Icc.mpr ⟨positive i inKeys,of_decide_eq_true le⟩
  have counted := Finset.card_le_card within
  rw [List.toFinset_card_of_nodup (nodup.filter _), Int.card_Icc, ← List.countP_eq_length_filter] at counted
  omega

theorem rankInPlaces (ascending : ks.Pairwise (· < ·)) :
    ks.map (rankIn ks) = (List.range ks.length).map fun (i : Nat) => (i : Int) + 1 := by
  refine List.ext_getElem (by simp) fun i left right => ?_
  rw [List.length_map] at left
  simp only [List.getElem_map, List.getElem_range]
  have places := List.pairwise_iff_getElem.mp ascending
  have before : ∀ x ∈ ks.take (i + 1), x ≤ ks[i] := by
    intro x mem
    obtain ⟨m,bound,rfl⟩ := List.mem_take_iff_getElem.mp mem
    rcases Nat.lt_or_ge m i with less | ge
    · exact Int.le_of_lt (places m i _ _ less)
    · have same : m = i := by omega
      subst same
      exact Int.le_refl _
  have after : ∀ x ∈ ks.drop (i + 1), ks[i] < x := by
    intro x mem
    obtain ⟨m,bound,rfl⟩ := List.mem_drop_iff_getElem.mp mem
    exact places i _ _ _ (by omega)
  have split : rankIn ks ks[i] = rankIn (ks.take (i + 1)) ks[i] + rankIn (ks.drop (i + 1)) ks[i] := by
    unfold rankIn
    rw [← Int.natCast_add, ← List.countP_append, List.take_append_drop]
  rw [split, rankInAll before, rankInNone after, List.length_take]
  omega

end
end FioRelic.Relational

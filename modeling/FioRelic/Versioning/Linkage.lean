import Mathlib.Data.List.Chain
import FioRelic.Versioning.Rewind

/-! The links of a log. An entry holds a row with its stamp and the block that replaced it.
Where every write stamps the new row with its own block, an entry has as its stamp the block
of the entry before it, and a stored row that of the last. -/
namespace FioRelic.Versioning

namespace Layout
variable {ρ α : Type} (L : Layout ρ α)

def trail (log : List α) (x : Int) : List α := log.filter fun a => decide (L.entity a = x)

structure Linked (rows : List ρ) (log : List α) : Prop where
  chain : ∀ x, (L.trail log x).IsChain fun a a' => L.stamp (L.row a') = L.written a
  last : ∀ x r, L.find rows x = some r → ∀ a ∈ (L.trail log x).getLast?, L.stamp r = L.written a

end Layout

section
variable {ρ α : Type} {L : Layout ρ α} {rows rows' : List ρ} {log entries : List α} {x : Int}

theorem trailMem {a : α} : a ∈ L.trail log x ↔ a ∈ log ∧ L.entity a = x := by
  simp [Layout.trail]

theorem trailNone (absent : x ∉ log.map L.entity) : L.trail log x = [] :=
  List.filter_eq_nil_iff.mpr fun a mem own =>
    absent (List.mem_map.mpr ⟨a,mem,of_decide_eq_true own⟩)

theorem trailOnce (once : (entries.map L.entity).Nodup) {e : α} (mem : e ∈ entries) :
    L.trail entries (L.entity e) = [e] := by
  induction entries with
  | nil => cases mem
  | cons first rest ih =>
    rw [List.map_cons, List.nodup_cons] at once
    rcases List.mem_cons.mp mem with rfl | later
    · have others : L.trail rest (L.entity e) = [] := trailNone once.1
      unfold Layout.trail at others ⊢
      rw [List.filter_cons, if_pos (decide_eq_true rfl), others]
    · have other : L.entity first ≠ L.entity e := fun same =>
        once.1 (same ▸ List.mem_map_of_mem later)
      have tail := ih once.2 later
      unfold Layout.trail at tail ⊢
      rw [List.filter_cons_of_neg (by simpa using other), tail]

theorem trailAppend : L.trail (log ++ entries) x = L.trail log x ++ L.trail entries x := List.filter_append ..

theorem linkedEmpty : L.Linked rows [] where
  chain := fun _ => List.isChain_nil
  last := fun _ _ _ _ mem => by cases mem

theorem linkedInsert {r : ρ} (fresh : L.key r ∉ log.map L.entity) (linked : L.Linked rows log) :
    L.Linked (rows ++ [r]) log where
  chain := linked.chain
  last := by
    intro x r' found a mem
    by_cases own : L.key r = x
    · rw [trailNone (own ▸ fresh)] at mem
      cases mem
    · have old : L.find (rows ++ [r]) x = L.find rows x := by simp [Layout.find, List.find?_append, own]
      exact linked.last x r' (old ▸ found) a mem

theorem linkedWrite {now : Option Int} (write : L.Write now rows rows' entries)
    (stamped : ∀ r ∈ rows', L.key r ∈ entries.map L.entity → L.stamp r = now) (linked : L.Linked rows log) :
    L.Linked rows' (log ++ entries) := by
  have others : ∀ x, x ∉ entries.map L.entity → L.trail (log ++ entries) x = L.trail log x := by
    intro x missed
    rw [trailAppend, trailNone missed, List.append_nil]
  have own : ∀ e ∈ entries, L.trail (log ++ entries) (L.entity e) = L.trail log (L.entity e) ++ [e] := by
    intro e mem
    rw [trailAppend, trailOnce write.once mem]
  constructor
  · intro x
    by_cases hit : x ∈ entries.map L.entity
    · obtain ⟨e,mem,rfl⟩ := List.mem_map.mp hit
      rw [own e mem]
      refine (linked.chain _).append (List.isChain_singleton e) fun a last e' first => ?_
      cases Option.mem_some.mp first
      exact linked.last _ _ (write.old e mem) a last
    · rw [others x hit]
      exact linked.chain x
  · intro x r found a last
    by_cases hit : x ∈ entries.map L.entity
    · obtain ⟨e,mem,rfl⟩ := List.mem_map.mp hit
      rw [own e mem, List.getLast?_concat] at last
      have same : e = a := Option.mem_some.mp last
      subst same
      obtain ⟨stored,key⟩ := findMem found
      rw [stamped r stored (key ▸ hit), write.written e mem]
    · rw [others x hit] at last
      exact linked.last x r (write.kept x hit ▸ found) a last

theorem chainBetween {R : α → α → Prop} {f : α → Int} {xs : List α} (chain : xs.IsChain R)
    (sorted : xs.Pairwise fun a a' => f a < f a') {a a' : α} (mem : a ∈ xs) (mem' : a' ∈ xs) (less : f a < f a')
    (none : ∀ m ∈ xs, ¬(f a < f m ∧ f m < f a')) : R a a' := by
  induction xs with
  | nil => cases mem
  | cons first rest ih =>
    obtain ⟨above,ascending⟩ := List.pairwise_cons.mp sorted
    have later : ∀ m ∈ first :: rest, f first < f m → m ∈ rest := by
      intro m mem less
      rcases List.mem_cons.mp mem with rfl | inside
      · exact absurd less (Int.lt_irrefl _)
      · exact inside
    rcases List.mem_cons.mp mem with rfl | inside
    · have inside' := later a' mem' less
      cases rest with
      | nil => cases inside'
      | cons next rest =>
        rcases List.mem_cons.mp inside' with rfl | beyond
        · exact (List.isChain_cons_cons.mp chain).1
        · have second := above next List.mem_cons_self
          have third := (List.pairwise_cons.mp ascending).1 a' beyond
          exact absurd ⟨second,third⟩ (none next (List.mem_cons_of_mem _ List.mem_cons_self))
    · have beyond := later a' mem' (Int.lt_trans (above a inside) less)
      exact ih chain.tail ascending inside beyond fun m mem => none m (List.mem_cons_of_mem _ mem)

end
end FioRelic.Versioning

import Mathlib.Data.List.Basic
import Mathlib.Data.List.Nodup

/-! What a client of a database works with: a connection with an open transaction, a
cursor over a result set, and statements over rows that have a key. Nothing here names
a schema. -/
namespace FioRelic.Relational

/- A connection without autocommit: a statement acts on the open transaction, and what
it did is durable at the next commit. -/
structure Connection (σ : Type) where
  working : σ
  committed : σ
  deriving DecidableEq, Repr

namespace Connection
variable {σ : Type}

def execute (c : Connection σ) (statement : σ → σ) : Connection σ := ⟨statement c.working,c.committed⟩
def commit (c : Connection σ) : Connection σ := ⟨c.working,c.working⟩
def rollback (c : Connection σ) : Connection σ := ⟨c.committed,c.committed⟩

def elsewhere (c : Connection σ) (change : σ → σ) : Connection σ := ⟨change c.working,change c.committed⟩

end Connection

/- Position 0 is before the first row, and one past the length is after the last, also in a
result without rows: there `first` stays before it, and `next` goes past it. -/
structure ResultSet (ρ : Type) where
  rows : List ρ
  position : Nat

namespace ResultSet
variable {ρ ε σ : Type}

def executeQuery (rows : List ρ) : ResultSet ρ := ⟨rows,0⟩
def first (r : ResultSet ρ) : ResultSet ρ := ⟨r.rows,if r.rows.isEmpty then 0 else 1⟩
def next (r : ResultSet ρ) : ResultSet ρ := ⟨r.rows,min (r.position + 1) (r.rows.length + 1)⟩
def isAfterLast (r : ResultSet ρ) : Bool := decide (r.rows.length < r.position)
def row (r : ResultSet ρ) : Option ρ := if r.position = 0 then none else r.rows[r.position - 1]?

def whileAfterLast (body : Option ρ → σ → Except ε σ) : Nat → ResultSet ρ → σ → Except ε σ
  | 0, _, x => .ok x
  | bound + 1, r, x =>
    if r.isAfterLast then do
      let x ← body r.row x
      whileAfterLast body bound r.next x
    else .ok x

@[simp] theorem firstNotAfterLast (r : ResultSet ρ) : r.first.isAfterLast = false := by
  cases rows : r.rows <;> simp [isAfterLast, first, rows]

theorem whileAfterLastFirst (body : Option ρ → σ → Except ε σ) (bound : Nat) (r : ResultSet ρ) (x : σ) :
    whileAfterLast body bound r.first x = .ok x := by
  cases bound <;> simp [whileAfterLast]

end ResultSet

section Keyed
variable {ρ κ : Type} [DecidableEq κ] (key : ρ → κ)

/- INSERT IGNORE: a row whose key is stored is dropped. -/
def insertIgnore (rows : List ρ) (row : ρ) : List ρ :=
  if rows.any fun r => decide (key r = key row) then rows else rows ++ [row]

def insertBatch (rows new : List ρ) : List ρ := new.foldl (insertIgnore key) rows

/- INSERT .. ON DUPLICATE KEY UPDATE, and the assignment of an entry in a map. -/
def upsert (rows : List ρ) (row : ρ) : List ρ :=
  if rows.any fun r => decide (key r = key row) then rows.map fun r => if key r = key row then row else r
  else rows ++ [row]

def upsertBatch (rows new : List ρ) : List ρ := new.foldl (upsert key) rows

variable {key} {rows new : List ρ} {row x : ρ}

theorem insertIgnoreFresh (fresh : key row ∉ rows.map key) : insertIgnore key rows row = rows ++ [row] := by
  unfold insertIgnore
  rw [if_neg]
  simp only [List.any_eq_true, decide_eq_true_eq]
  rintro ⟨r,mem,same⟩
  exact fresh (List.mem_map.mpr ⟨r,mem,same⟩)

theorem insertBatchFresh (nodup : (new.map key).Nodup) (fresh : ∀ r ∈ new, key r ∉ rows.map key) :
    insertBatch key rows new = rows ++ new := by
  induction new generalizing rows with
  | nil => simp [insertBatch]
  | cons row rest ih =>
    simp only [List.map_cons, List.nodup_cons] at nodup
    have step : insertBatch key rows (row :: rest) = insertBatch key (rows ++ [row]) rest := by
      simp only [insertBatch, List.foldl_cons, insertIgnoreFresh (fresh row List.mem_cons_self)]
    rw [step, ih nodup.2, List.append_assoc]
    · rfl
    · intro r mem listed
      simp only [List.map_append, List.map_cons, List.map_nil, List.mem_append, List.mem_singleton] at listed
      rcases listed with old | same
      · exact fresh r (List.mem_cons_of_mem _ mem) old
      · exact nodup.1 (same ▸ List.mem_map_of_mem mem)

theorem insertBatchSub : rows ⊆ insertBatch key rows new := by
  induction new generalizing rows with
  | nil => simp [insertBatch]
  | cons row rest ih =>
    have grown : rows ⊆ insertIgnore key rows row := by
      unfold insertIgnore
      split <;> simp
    exact List.Subset.trans grown ih

theorem insertBatchMem (mem : x ∈ insertBatch key rows new) : x ∈ rows ∨ x ∈ new := by
  induction new generalizing rows with
  | nil => exact Or.inl mem
  | cons row rest ih =>
    rcases ih mem with grown | later
    · unfold insertIgnore at grown
      split at grown
      · exact Or.inl grown
      · rcases List.mem_append.mp grown with old | own
        · exact Or.inl old
        · exact Or.inr (List.mem_singleton.mp own ▸ List.mem_cons_self)
    · exact Or.inr (List.mem_cons_of_mem _ later)

theorem insertBatchKeys (mem : row ∈ new) : ∃ r ∈ insertBatch key rows new, key r = key row := by
  induction new generalizing rows with
  | nil => cases mem
  | cons head rest ih =>
    rcases List.mem_cons.mp mem with rfl | later
    · have stored : ∃ r ∈ insertIgnore key rows row, key r = key row := by
        unfold insertIgnore
        split
        · rename_i hit
          obtain ⟨r,mem,same⟩ := List.any_eq_true.mp hit
          exact ⟨r,mem,of_decide_eq_true same⟩
        · exact ⟨row,by simp,rfl⟩
      obtain ⟨r,mem,same⟩ := stored
      have kept : insertIgnore key rows row ⊆ insertBatch key (insertIgnore key rows row) rest := insertBatchSub
      exact ⟨r,kept mem,same⟩
    · exact ih later

theorem insertBatchNodup (nodup : (rows.map key).Nodup) : ((insertBatch key rows new).map key).Nodup := by
  induction new generalizing rows with
  | nil => exact nodup
  | cons row rest ih =>
    refine ih ?_
    by_cases stored : key row ∈ rows.map key
    · obtain ⟨r,mem,same⟩ := List.mem_map.mp stored
      have hit : (rows.any fun r => decide (key r = key row)) = true :=
        List.any_eq_true.mpr ⟨r,mem,decide_eq_true same⟩
      unfold insertIgnore
      rwa [if_pos hit]
    · rw [insertIgnoreFresh stored, List.map_append, List.map_singleton, ← List.concat_eq_append]
      exact List.Nodup.concat stored nodup

theorem insertBatchExact (single : ∀ x y, x ∈ rows ∨ x ∈ new → y ∈ rows ∨ y ∈ new → key x = key y → x = y) :
    x ∈ insertBatch key rows new ↔ x ∈ rows ∨ x ∈ new := by
  refine ⟨insertBatchMem,?_⟩
  rintro (old | sent)
  · exact insertBatchSub old
  · have stored : ∃ r ∈ insertBatch key rows new, key r = key x := insertBatchKeys sent
    obtain ⟨r,mem,same⟩ := stored
    exact single r x (insertBatchMem mem) (Or.inr sent) same ▸ mem

end Keyed
end FioRelic.Relational

import FioRelic.Prototype.Retention

/-! The cleaner's inner loop. It deletes ten blocks at a time, and in the end what one
deletion at the cut-off would. -/
namespace FioRelic.Prototype
open Relational

namespace Store

def since (bound : Int) (s : Store) : Store :=
  { s with
    transactions := s.transactions.filter fun r => decide (bound ≤ r.blockNum)
    receipts := s.receipts.filter fun x => decide (bound ≤ x.blockNum) }

structure Dated (s : Store) : Prop where
  transactions : ∀ r ∈ s.transactions, 0 ≤ r.blockNum ∧ r.blockNum ≤ 2147483637
  receipts : ∀ x ∈ s.receipts, 0 ≤ x.blockNum ∧ x.blockNum ≤ 2147483637
  younger : ∀ oldest, s.minTxBlock = some oldest → ∀ x ∈ s.receipts, oldest ≤ x.blockNum

section
variable {s : Store} {low bound : Int}

theorem laterFilter {ρ : Type} {rows : List ρ} {blockNum : ρ → Int} (le : low ≤ bound) :
    (rows.filter fun r => decide (low ≤ blockNum r)).filter (fun r => !decide (blockNum r < bound)) =
      rows.filter fun r => decide (bound ≤ blockNum r) := by
  rw [List.filter_filter]
  refine List.filter_congr fun r _ => ?_
  rw [Bool.eq_iff_iff]
  simp only [Bool.and_eq_true, Bool.not_eq_true', decide_eq_false_iff_not, decide_eq_true_eq]
  omega

theorem sincePruned (le : low ≤ bound) : ((s.since low).pruneTransactions bound).pruneReceipts bound = s.since bound := by
  simp only [since, pruneTransactions, pruneReceipts, laterFilter le]

theorem pruneReceiptsTwice : (s.pruneReceipts bound).pruneReceipts bound = s.pruneReceipts bound := by
  simp [pruneReceipts, List.filter_filter]

theorem sinceAll (transactions : ∀ r ∈ s.transactions, bound ≤ r.blockNum)
    (receipts : ∀ x ∈ s.receipts, bound ≤ x.blockNum) :
    s.since bound = s := by
  have kept : (s.transactions.filter fun r => decide (bound ≤ r.blockNum)) = s.transactions :=
    List.filter_eq_self.mpr fun r mem => decide_eq_true (transactions r mem)
  have kept' : (s.receipts.filter fun x => decide (bound ≤ x.blockNum)) = s.receipts :=
    List.filter_eq_self.mpr fun x mem => decide_eq_true (receipts x mem)
  rw [since, kept, kept']

theorem oldestRead {oldest : Int} (dated : s.Dated) (read : getInt s.minTxBlock = .ok oldest) :
    0 ≤ oldest ∧ (∀ r ∈ s.transactions, oldest ≤ r.blockNum) ∧ ∀ x ∈ s.receipts, oldest ≤ x.blockNum := by
  cases least : s.minTxBlock with
  | none =>
    rw [least] at read
    cases read
    exact ⟨Int.le_refl 0,fun r mem => (dated.transactions r mem).1,fun x mem => (dated.receipts x mem).1⟩
  | some m =>
    rw [least, getInt] at read
    split at read
    · cases read
      obtain ⟨listed,lowest⟩ := List.min?_eq_some_iff.mp least
      obtain ⟨r,mem,rfl⟩ := List.mem_map.mp listed
      exact ⟨(dated.transactions r mem).1,fun r' mem' => lowest _ (List.mem_map_of_mem mem'),dated.younger _ least⟩
    · cases read

end
end Store

namespace Cleaner

def deleting : Nat → Cleaner → Option (List Store × Cleaner)
  | 0, _ => none
  | turns + 1, c =>
    if c.minBlock < c.uptoBlock then
      (deleting turns c.prune).map fun done => (c.prune.connection.committed :: done.1,done.2)
    else some ([],c)

section Loop
variable {c : Cleaner} {s : Store}

theorem deletingTurns {turns : Nat} {c' : Cleaner} {commits : List Store} (ran : c.deleting turns = some (commits,c')) :
    (List.replicate commits.length Event.turn).foldlM step c = some c' ∧ c'.uptoBlock ≤ c'.minBlock ∧
      ∀ i s', commits[i]? = some s' →
        ∃ u, (List.replicate (i + 1) Event.turn).foldlM step c = some u ∧ u.connection.committed = s' := by
  induction turns generalizing c commits with
  | zero => cases ran
  | succ turns ih =>
    rw [deleting] at ran
    split at ran
    · rename_i goes
      obtain ⟨⟨later,_⟩,rest,same⟩ := Option.map_eq_some_iff.mp ran
      cases same
      obtain ⟨runs,ended,each⟩ := ih rest
      have first : step c .turn = some c.prune := by simp only [step, turn, if_pos goes]
      refine ⟨foldlMCons.mpr ⟨c.prune,first,runs⟩,ended,fun i s' listed => ?_⟩
      cases i with
      | zero => exact ⟨c.prune,foldlMCons.mpr ⟨c.prune,first,rfl⟩,Option.some.inj listed⟩
      | succ i =>
        obtain ⟨u,ran,left⟩ := each i s' listed
        exact ⟨u,foldlMCons.mpr ⟨c.prune,first,ran⟩,left⟩
    · rename_i ended
      cases ran
      exact ⟨rfl,Int.not_lt.mp ended,fun i s' listed => by cases listed⟩

theorem deleteUptoPast (low : 0 ≤ c.minBlock) (goes : c.minBlock < c.uptoBlock) (range : c.uptoBlock ≤ 2147483637) :
    c.minBlock < c.deleteUpto := by
  unfold deleteUpto
  rw [narrowSame (n := c.minBlock + 10) (by omega) (by omega)]
  simp only
  split <;> omega

theorem prunedSince (low : 0 ≤ c.minBlock) (goes : c.minBlock < c.uptoBlock) (range : c.uptoBlock ≤ 2147483637)
    (held : c.connection = ⟨s.since c.minBlock,s.since c.minBlock⟩) :
    c.prune.connection = ⟨s.since c.deleteUpto,s.since c.deleteUpto⟩ := by
  have later := Store.sincePruned (s := s) (Int.le_of_lt (deleteUptoPast low goes range))
  have working : (((s.since c.minBlock).pruneTransactions c.deleteUpto).pruneReceipts c.deleteUpto).pruneReceipts
      c.deleteUpto = s.since c.deleteUpto := Store.pruneReceiptsTwice.trans later
  simp only [prune, held, Connection.execute, Connection.commit, working]

theorem deletingSince (turns : Nat) (enough : (c.uptoBlock - c.minBlock).toNat < turns) (low : 0 ≤ c.minBlock)
    (range : c.uptoBlock ≤ 2147483637) (held : c.connection = ⟨s.since c.minBlock,s.since c.minBlock⟩) :
    ∃ commits c', c.deleting turns = some (commits,c') ∧
      c'.connection = ⟨s.since (max c.minBlock c.uptoBlock),s.since (max c.minBlock c.uptoBlock)⟩ ∧
      ∀ s' ∈ commits, ∃ bound, bound ≤ c.uptoBlock ∧ s' = s.since bound := by
  induction turns generalizing c with
  | zero => omega
  | succ turns ih =>
    by_cases goes : c.minBlock < c.uptoBlock
    · have past := deleteUptoPast low goes range
      have upto : c.deleteUpto ≤ c.uptoBlock := deleteUptoLe
      have chunk := prunedSince low goes range held
      have next : c.prune.minBlock = c.deleteUpto := rfl
      have same : c.prune.uptoBlock = c.uptoBlock := rfl
      obtain ⟨commits,c',rest,ended,cuts⟩ := ih (c := c.prune) (by omega) (by omega) (by omega) (next ▸ chunk)
      refine ⟨c.prune.connection.committed :: commits,c',?_,?_,?_⟩
      · rw [deleting, if_pos goes, rest]
        rfl
      · rw [ended, next, same, Int.max_eq_right upto, Int.max_eq_right (Int.le_of_lt goes)]
      · intro s' mem
        rcases List.mem_cons.mp mem with rfl | later
        · exact ⟨c.deleteUpto,upto,by rw [chunk]⟩
        · exact cuts s' later
    · refine ⟨[],c,by rw [deleting, if_neg goes],?_,fun s' mem => absurd mem List.not_mem_nil⟩
      rw [Int.max_eq_left (Int.not_lt.mp goes)]
      exact held

theorem chunksDelete (opened : c.connection = ⟨s,s⟩) (oldest : getInt s.minTxBlock = .ok c.minBlock) (dated : s.Dated)
    (range : c.uptoBlock ≤ 2147483637) :
    ∃ turns commits c', c.deleting turns = some (commits,c') ∧
      c'.connection = ⟨s.since c.uptoBlock,s.since c.uptoBlock⟩ ∧
      ∀ s' ∈ commits, ∃ bound, bound ≤ c.uptoBlock ∧ s' = s.since bound := by
  obtain ⟨low,transactions,receipts⟩ := Store.oldestRead dated oldest
  have held : c.connection = ⟨s.since c.minBlock,s.since c.minBlock⟩ := by rw [Store.sinceAll transactions receipts, opened]
  obtain ⟨commits,c',ran,ended,cuts⟩ := deletingSince ((c.uptoBlock - c.minBlock).toNat + 1) (by omega) low range held
  refine ⟨_,commits,c',ran,?_,cuts⟩
  rcases Int.le_total c.uptoBlock c.minBlock with early | late
  · have nothing : s.since c.uptoBlock = s := Store.sinceAll (fun r mem => Int.le_trans early (transactions r mem))
      fun x mem => Int.le_trans early (receipts x mem)
    rw [ended, Int.max_eq_left early, nothing, Store.sinceAll transactions receipts]
  · rw [ended, Int.max_eq_right late]

end Loop

def sparse : Store :=
  ⟨[],[⟨0,3,"","",⟨"",3,"","","",[]⟩⟩,⟨1,25,"","",⟨"",25,"","","",[]⟩⟩],[⟨0,3,"","","","",0⟩],[],[]⟩

theorem chunksDeleteSparse : ∃ turns commits c', (⟨⟨sparse,sparse⟩,0,24,3,24⟩ : Cleaner).deleting turns = some (commits,c') ∧
    c'.connection = ⟨sparse.since 24,sparse.since 24⟩ ∧
    ∀ s' ∈ commits, ∃ bound, bound ≤ 24 ∧ s' = sparse.since bound := by
  have dated : sparse.Dated := by
    refine ⟨by decide,by decide,fun oldest least => ?_⟩
    cases Option.some.inj (show some 3 = some oldest from least)
    decide
  exact chunksDelete (c := ⟨⟨sparse,sparse⟩,0,24,3,24⟩) rfl (by decide) dated (by decide)

end Cleaner
end FioRelic.Prototype

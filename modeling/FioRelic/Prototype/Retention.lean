import FioRelic.Prototype.Cleaner
import FioRelic.Prototype.Steps

/-! Retention: what the two pruners may delete under keep-days, and what their 32-bit
cut-off deletes. -/
namespace FioRelic.Prototype
open Relational

def Protected (keepDays irreversible blockNum : Int) : Prop := keepDays < 0 ∨ irreversible - keepDays * 172800 ≤ blockNum

structure Honours (keepDays irreversible : Int) (s s' : Store) : Prop where
  transactions : ∀ r ∈ s.transactions, Protected keepDays irreversible r.blockNum → r ∈ s'.transactions
  receipts : ∀ x ∈ s.receipts, Protected keepDays irreversible x.blockNum → x ∈ s'.receipts

def CleanerHonours (keepDays : Int) : Prop :=
  ∀ (s : Store) (run : List Cleaner.Event) (c c' : Cleaner), run.foldlM Cleaner.step (Cleaner.fresh keepDays s) = some c →
    c.turn = .ok c' → Honours keepDays c'.lastIrrev c.connection.working c'.connection.working

def SlaveHonours (keepDays : Int) : Prop :=
  ∀ (o : Options) (s : Store) (run : List (Clock × Message)) (w w' : Writer) (now : Clock) (m : Message),
    o.keepDays = keepDays → Writer.initializeWriter o s = .ok w → w.iAmMaster = false →
      run.foldlM Writer.step w = some w' → (∀ json, m = .blockCompleted json → 0 ≤ json.lastIrreversible) →
        Honours keepDays (w'.processData now m).1.irreversible w'.connection.working
          (w'.processData now m).1.connection.working

section Narrow
variable {n keepDays : Int}

theorem narrowRange : -2147483648 ≤ narrow n ∧ narrow n ≤ 2147483647 := by
  unfold narrow
  omega

theorem narrowSame (low : -2147483648 ≤ n) (high : n ≤ 2147483647) : narrow n = n := by
  unfold narrow
  omega

theorem narrowLe (low : -2147483648 ≤ n) : narrow n ≤ n := by
  unfold narrow
  omega

theorem keepBlocksExact (low : 0 ≤ keepDays) (high : keepDays ≤ 12427) : keepBlocksOf keepDays = keepDays * 172800 := by
  have hours : narrow (keepDays * 24) = keepDays * 24 := narrowSame (by omega) (by omega)
  rw [keepBlocksOf, if_pos low, hours, narrowSame (by omega) (by omega)]
  omega

/- A day is a multiple of 256 blocks, and so is every product that wraps. -/
theorem keepBlocksEven (low : 0 ≤ keepDays) : keepBlocksOf keepDays % 256 = 0 := by
  rw [keepBlocksOf, if_pos low]
  unfold narrow
  omega

end Narrow

section Pruning
variable {keepDays irreversible upto : Int} {s s' s'' : Store}

theorem Honours.refl : Honours keepDays irreversible s s := ⟨fun _ mem _ => mem,fun _ mem _ => mem⟩

theorem Honours.trans (early : Honours keepDays irreversible s s') (late : Honours keepDays irreversible s' s'') :
    Honours keepDays irreversible s s'' where
  transactions := fun r mem guarded => late.transactions r (early.transactions r mem guarded) guarded
  receipts := fun x mem guarded => late.receipts x (early.receipts x mem guarded) guarded

theorem guardedPast {blockNum : Int} (exact : upto ≤ irreversible - keepDays * 172800) (kept : 0 ≤ keepDays)
    (guarded : Protected keepDays irreversible blockNum) : (!decide (blockNum < upto)) = true := by
  unfold Protected at guarded
  simp only [Bool.not_eq_true', decide_eq_false_iff_not]
  omega

theorem transactionsHonour (exact : upto ≤ irreversible - keepDays * 172800) (kept : 0 ≤ keepDays) :
    Honours keepDays irreversible s (s.pruneTransactions upto) where
  transactions := fun _ mem guarded => List.mem_filter.mpr ⟨mem,guardedPast exact kept guarded⟩
  receipts := fun _ mem _ => mem

theorem receiptsHonour (exact : upto ≤ irreversible - keepDays * 172800) (kept : 0 ≤ keepDays) :
    Honours keepDays irreversible s (s.pruneReceipts upto) where
  transactions := fun _ mem _ => mem
  receipts := fun _ mem guarded => List.mem_filter.mpr ⟨mem,guardedPast exact kept guarded⟩

end Pruning

theorem getIntFits {n : Option Int} {k : Int} (ok : getInt n = .ok k) : -2147483648 ≤ k ∧ k ≤ 2147483647 := by
  cases n with
  | none =>
    cases ok
    decide
  | some i =>
    simp only [getInt] at ok
    split at ok
    · rename_i fits
      cases ok
      simpa [fitsInt] using fits
    · cases ok

namespace Cleaner

structure Bounded (keepDays : Int) (c : Cleaner) : Prop where
  keepBlocks : c.keepBlocks = keepDays * 172800
  lastIrrev : 0 ≤ c.lastIrrev
  upto : c.minBlock < c.uptoBlock → c.uptoBlock ≤ c.lastIrrev - keepDays * 172800

section Turns
variable {c c' : Cleaner} {keepDays : Int} {s : Store}

theorem deleteUptoLe : c.deleteUpto ≤ c.uptoBlock := by
  unfold deleteUpto
  simp only
  split
  · exact Int.le_refl _
  · omega

inductive Turned (c : Cleaner) : Cleaner → Prop where
  | pruned (goes : c.minBlock < c.uptoBlock) : Turned c c.prune
  | idle (ended : c.uptoBlock ≤ c.minBlock) : Turned c { c with connection := c.connection.commit }
  | begun {minIrrev minBlock} (ended : c.uptoBlock ≤ c.minBlock)
      (read : getInt c.connection.working.minIrreversible = .ok minIrrev) (moved : c.lastIrrev < minIrrev)
      (oldest : getInt c.connection.working.minTxBlock = .ok minBlock) :
      Turned c { c with
        connection := c.connection.commit
        lastIrrev := minIrrev
        uptoBlock := narrow (minIrrev - c.keepBlocks)
        minBlock := minBlock }

theorem turned (ok : c.turn = .ok c') : Turned c c' := by
  unfold turn at ok
  split at ok
  · rename_i goes
    cases ok
    exact .pruned goes
  · rename_i ended
    obtain ⟨minIrrev,read,ok⟩ := bindReturns.mp ok
    simp only at ok
    split at ok
    · cases ok
      exact .idle (Int.not_lt.mp ended)
    · rename_i moved
      obtain ⟨minBlock,oldest,ok⟩ := bindReturns.mp ok
      cases ok
      exact .begun (Int.not_lt.mp ended) read (Int.not_le.mp moved) oldest

theorem boundedFresh (low : 0 ≤ keepDays) (high : keepDays ≤ 12427) : Bounded keepDays (fresh keepDays s) where
  keepBlocks := keepBlocksExact low high
  lastIrrev := Int.le_refl 0
  upto := fun goes => absurd goes (Int.lt_irrefl 0)

theorem boundedTurned (low : 0 ≤ keepDays) (high : keepDays ≤ 12427) (held : Bounded keepDays c) (turned : Turned c c') :
    Bounded keepDays c' := by
  cases turned with
  | pruned goes => exact ⟨held.keepBlocks,held.lastIrrev,fun _ => held.upto goes⟩
  | idle => exact ⟨held.keepBlocks,held.lastIrrev,held.upto⟩
  | begun ended read moved oldest =>
    have fits := getIntFits read
    have lib := held.lastIrrev
    refine ⟨held.keepBlocks,by simp only; omega,fun _ => ?_⟩
    simp only [held.keepBlocks]
    exact Int.le_of_eq (narrowSame (by omega) (by omega))

theorem boundedStep {e : Event} (low : 0 ≤ keepDays) (high : keepDays ≤ 12427) (held : Bounded keepDays c)
    (ok : c.step e = some c') : Bounded keepDays c' := by
  cases e with
  | turn =>
    simp only [step] at ok
    split at ok
    · rename_i next done
      cases ok
      exact boundedTurned low high held (turned done)
    · cases ok
  | elsewhere change =>
    cases ok
    exact ⟨held.keepBlocks,held.lastIrrev,held.upto⟩

theorem turnHonours (low : 0 ≤ keepDays) (held : Bounded keepDays c) (turned : Turned c c') :
    Honours keepDays c'.lastIrrev c.connection.working c'.connection.working := by
  cases turned with
  | pruned goes =>
    have exact : c.deleteUpto ≤ c.lastIrrev - keepDays * 172800 := Int.le_trans deleteUptoLe (held.upto goes)
    exact ((transactionsHonour exact low).trans (receiptsHonour exact low)).trans (receiptsHonour exact low)
  | idle => exact Honours.refl
  | begun => exact Honours.refl

def alone (irreversible : Int) (blockNum : Int) : Store :=
  ⟨[⟨1,0,irreversible,1,0⟩],[⟨0,blockNum,"","",⟨"",blockNum,"","","",[]⟩⟩],[],[],[]⟩

theorem aloneDeleted (irreversible blockNum : Int) (positive : 0 < irreversible) (fits : irreversible ≤ 2147483647)
    (low : -2147483648 ≤ blockNum) (high : blockNum ≤ 2147483637)
    (cut : blockNum < narrow (irreversible - keepBlocksOf keepDays)) (guarded : Protected keepDays irreversible blockNum) :
    ¬ CleanerHonours keepDays := by
  intro honours
  have irrev : getInt (alone irreversible blockNum).minIrreversible = .ok irreversible := by
    simp only [alone, Store.minIrreversible, List.map_cons, List.map_nil, List.min?_singleton, getInt, fitsInt]
    exact if_pos (decide_eq_true (by omega))
  have oldest : getInt (alone irreversible blockNum).minTxBlock = .ok blockNum := by
    simp only [alone, Store.minTxBlock, List.map_cons, List.map_nil, List.min?_singleton, getInt, fitsInt]
    exact if_pos (decide_eq_true (by omega))
  let begun : Cleaner := ⟨⟨alone irreversible blockNum,alone irreversible blockNum⟩,keepBlocksOf keepDays,irreversible,
    blockNum,narrow (irreversible - keepBlocksOf keepDays)⟩
  have passed : (fresh keepDays (alone irreversible blockNum)).step .turn = some begun := by
    simp [step, turn, look, fresh, begun, irrev, oldest, bind, Except.bind, Connection.commit, Int.not_le.mpr positive]
  have goes : begun.turn = .ok begun.prune := if_pos cut
  have kept := (honours _ [.turn] begun begun.prune (foldlMCons.mpr ⟨_,passed,rfl⟩) goes).transactions
    ⟨0,blockNum,"","",⟨"",blockNum,"","","",[]⟩⟩ List.mem_cons_self guarded
  have below : blockNum < begun.deleteUpto := by
    simp only [deleteUpto, begun]
    rw [narrowSame (n := blockNum + 10) (by omega) (by omega)]
    split <;> omega
  have stays := (List.mem_filter.mp kept).2
  simp [below] at stays

theorem cleanerHonours (low : 0 ≤ keepDays) (high : keepDays ≤ 12427) : CleanerHonours keepDays := by
  intro s run c c' ran ok
  have held : Bounded keepDays c :=
    runPreserves (Bounded keepDays) (fun held _ ok => boundedStep low high held ok) (boundedFresh low high)
      (Along.always (P := fun _ _ => True) fun _ _ => trivial) ran
  exact turnHonours low held (turned ok)

theorem cleanerBreaks (outside : keepDays < 0 ∨ 12427 < keepDays) : ¬ CleanerHonours keepDays := by
  rcases outside with negative | large
  · have blocks : keepBlocksOf keepDays = -1 := if_neg (Int.not_le.mpr negative)
    have cut : 0 < narrow (1 - keepBlocksOf keepDays) := by
      rw [blocks]
      decide
    exact aloneDeleted 1 0 (by decide) (by decide) (by decide) (by decide) cut (Or.inl negative)
  · have even : keepBlocksOf keepDays % 256 = 0 := keepBlocksEven (by omega)
    have range : -2147483648 ≤ keepBlocksOf keepDays ∧ keepBlocksOf keepDays ≤ 2147483647 := by
      rw [keepBlocksOf, if_pos (by omega)]
      exact narrowRange
    by_cases positive : 0 ≤ keepBlocksOf keepDays
    · -- LIB one block past the wrapped window
      have cut : 0 < narrow (keepBlocksOf keepDays + 1 - keepBlocksOf keepDays) := by
        rw [narrowSame (by omega) (by omega)]
        omega
      exact aloneDeleted (keepBlocksOf keepDays + 1) 0 (by omega) (by omega) (by decide) (by decide) cut
        (Or.inr (by omega))
    · by_cases least : keepBlocksOf keepDays = -2147483648
      · -- the difference wraps too, to the second least int
        have cut : -2147483648 < narrow (1 - keepBlocksOf keepDays) := by
          rw [least]
          decide
        exact aloneDeleted 1 (-2147483648) (by decide) (by decide) (by decide) (by decide) cut (Or.inr (by omega))
      · have cut : 0 < narrow (1 - keepBlocksOf keepDays) := by
          rw [narrowSame (by omega) (by omega)]
          omega
        exact aloneDeleted 1 0 (by decide) (by decide) (by decide) (by decide) cut (Or.inr (by omega))

end Turns
end Cleaner

namespace Writer
section Slave
variable {w w' : Writer} {s : Store} {o : Options} {keepDays : Int}

theorem cleaningHonours {n : Int} (low : 0 ≤ keepDays) (high : keepDays ≤ 12427)
    (blocks : w.keepBlocks = keepBlocksOf keepDays) (lib : 0 ≤ n) :
    Honours keepDays n s (w.cleaning n s) := by
  have exact : narrow (n - w.keepBlocks) ≤ n - keepDays * 172800 := by
    rw [blocks, keepBlocksExact low high]
    exact narrowLe (by omega)
  have cleaned : Honours keepDays n s s.cleanBkp := ⟨fun _ mem _ => mem,fun _ mem _ => mem⟩
  unfold cleaning
  split
  · split
    · exact (cleaned.trans (receiptsHonour exact low)).trans (transactionsHonour exact low)
    · exact cleaned
  · exact Honours.refl

theorem takenHonours {json : BlockCompleted} (low : 0 ≤ keepDays) (high : keepDays ≤ 12427) (slave : w.iAmMaster = false)
    (blocks : w.keepBlocks = keepBlocksOf keepDays) (lib : 0 ≤ json.lastIrreversible) :
    Honours keepDays (w.taken json).irreversible w.connection.working (w.taken json).connection.working := by
  have sent : (w.taken json).connection.working =
      (w.cleaning json.lastIrreversible w.connection.working).insrtBkpTraces w.insertBkpTraces := by
    simp [taken, sending, slave, Connection.execute]
  have cleaned : Honours keepDays (w.taken json).irreversible w.connection.working
      (w.cleaning json.lastIrreversible w.connection.working) := by
    by_cases moved : w.irreversible < json.lastIrreversible
    · have reached : (w.taken json).irreversible = json.lastIrreversible := Int.max_eq_right (Int.le_of_lt moved)
      rw [reached]
      exact cleaningHonours low high blocks lib
    · rw [cleaning, if_neg fun both => moved both.1]
      exact Honours.refl
  rw [sent]
  exact cleaned.trans ⟨fun _ mem _ => mem,fun _ mem _ => mem⟩

theorem processedHonours {now : Clock} {m : Message} {v : Int} (low : 0 ≤ keepDays) (high : keepDays ≤ 12427)
    (slave : w.iAmMaster = false) (blocks : w.keepBlocks = keepBlocksOf keepDays)
    (lib : ∀ json, m = .blockCompleted json → 0 ≤ json.lastIrreversible) (call : Processed now w m w' v) :
    Honours keepDays w'.irreversible w.connection.working w'.connection.working := by
  cases call with
  | forked =>
    simp only [Writer.forked, forking, slave, Connection.execute, Connection.commit]
    exact ⟨fun _ mem _ => mem,fun _ mem _ => mem⟩
  | traced =>
    rw [tracedConnection.1]
    exact Honours.refl
  | batched | completed => exact takenHonours low high slave blocks (lib _ rfl)
  | _ => exact Honours.refl

theorem slaveHonours (low : 0 ≤ keepDays) (high : keepDays ≤ 12427) : SlaveHonours keepDays := by
  intro o s run w w' now m days start slave ran lib
  have held : w'.iAmMaster = false ∧ w'.keepBlocks = keepBlocksOf keepDays := by
    refine runPreserves (fun w => w.iAmMaster = false ∧ w.keepBlocks = keepBlocksOf keepDays) ?_ ⟨slave,?_⟩
      (Along.always (P := fun _ _ => True) fun _ _ => trivial) ran
    · rintro u call u' ⟨slave,blocks⟩ _ ok
      obtain ⟨v,processed⟩ := stepped ok
      have fixed := processedFixed processed
      exact ⟨fixed.1.trans slave,fixed.2.trans blocks⟩
    · obtain ⟨own,found,rfl⟩ := initialized start
      exact congrArg keepBlocksOf days
  obtain ⟨slave,blocks⟩ := held
  rcases @outcome w' now m with ⟨v,call⟩ | same | ⟨json,rfl,_,_,same⟩
  · exact processedHonours low high slave blocks lib call
  · rw [same]
    exact Honours.refl
  · rw [same]
    exact takenHonours low high slave blocks (lib json rfl)

end Slave
end Writer

theorem retentionHonoured (keepDays : Int) :
    CleanerHonours keepDays ∧ SlaveHonours keepDays ↔ 0 ≤ keepDays ∧ keepDays ≤ 12427 := by
  constructor
  · rintro ⟨cleaner,_⟩
    by_contra outside
    exact Cleaner.cleanerBreaks (by omega) cleaner
  · rintro ⟨low,high⟩
    exact ⟨Cleaner.cleanerHonours low high,Writer.slaveHonours low high⟩

theorem defaultPrunes : (∃ c, [Cleaner.Event.turn,.turn].foldlM Cleaner.step
      (Cleaner.fresh defaultOptions.keepDays (Cleaner.alone 1 0)) = some c ∧
        (Cleaner.alone 1 0).transactions ≠ [] ∧ c.connection.committed.transactions = []) ∧
    ¬ CleanerHonours defaultOptions.keepDays := by
  refine ⟨⟨(⟨⟨Cleaner.alone 1 0,Cleaner.alone 1 0⟩,-1,1,0,2⟩ : Cleaner).prune,by decide +kernel,by decide,
    by decide +kernel⟩,?_⟩
  exact Cleaner.cleanerBreaks (Or.inl (by decide))

end FioRelic.Prototype

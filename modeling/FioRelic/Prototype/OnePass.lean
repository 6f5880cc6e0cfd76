import FioRelic.Prototype.Demotion
import FioRelic.Prototype.Retention

/-! The LIB that the cleaner sees. The statement that would move it in SYNC is prepared and
given its parameters, but no writer executes it. So the cleaner works with the LIB it found
when it started: it makes one pass up to one cut-off, whatever the writers do meanwhile. -/
namespace FioRelic.Prototype
open Relational

namespace Store

def standing (s : Store) : List (Int × Int × Int × Int) :=
  s.sync.map fun r => (r.sourceid,r.irreversible,r.isMaster,r.lastUpdated)

theorem standingLowest (s : Store) : s.minIrreversible = (s.standing.map fun x => x.2.1).min? := by
  unfold minIrreversible standing
  rw [List.map_map]
  rfl

theorem updSyncForkStanding {s : Store} {n sourceId : Int} : (s.updSyncFork n sourceId).standing = s.standing := by
  unfold standing updSyncFork
  rw [List.map_map]
  refine List.map_congr_left fun r _ => ?_
  by_cases own : r.sourceid = sourceId <;> simp [own]

end Store

namespace Writer

def effect (w : Writer) (now : Clock) (m : Message) (s : Store) : Store :=
  ({ w with connection := ⟨s,s⟩ }.onRead now m).1.connection.working

section Standing
variable {w w' : Writer} {now : Clock} {m : Message} {v : Int}

theorem forkedStanding {n : Int} : (w.forked n).connection.working.standing = w.connection.working.standing := by
  change (w.forking n w.connection.working).standing = _
  unfold forking
  rw [Store.updSyncForkStanding]
  split <;> rfl

theorem takenStanding {json : BlockCompleted} :
    (w.taken json).connection.working.standing = w.connection.working.standing := by
  unfold Store.standing
  rw [takenSync]

theorem processedStanding (call : Processed now w m w' v) :
    w'.connection.working.standing = w.connection.working.standing := by
  cases call with
  | ignored => rfl
  | forked => exact forkedStanding
  | skipped => rfl
  | traced => rw [tracedConnection.1]
  | batched => exact takenStanding
  | completed => exact takenStanding
  | unknown => rfl

theorem onReadStanding : (w.onRead now m).1.connection.working.standing = w.connection.working.standing := by
  have asking : Asked now w (w.checkRole now) := asked
  have same : (w.checkRole now).connection = w.connection := (askedCommits (m := m) asking).1
  rw [← same]
  change (processData now (w.checkRole now) m).1.connection.working.standing = _
  have result : (∃ v, Processed now (w.checkRole now) m (processData now (w.checkRole now) m).1 v) ∨
      (processData now (w.checkRole now) m).1 = w.checkRole now ∨ ∃ json, m = .blockCompleted json ∧
        (w.checkRole now).Commits m ∧ Looks now (w.checkRole now) json ∧
        (processData now (w.checkRole now) m).1 = (w.checkRole now).completed json := outcome
  rcases result with ⟨v,call⟩ | kept | ⟨json,_,_,_,left⟩
  · exact processedStanding call
  · rw [kept]
  · rw [left]
    exact takenStanding

theorem effectStanding {s : Store} : (w.effect now m s).standing = s.standing := onReadStanding

end Standing
end Writer

def Cleaner.Event.ByWriter : Cleaner.Event → Prop
  | .turn => True
  | .elsewhere change => ∃ (w : Writer) (now : Clock) (m : Message), change = w.effect now m

structure Spares (cut : Int) (s s' : Store) : Prop where
  transactions : ∀ r ∈ s.transactions, cut ≤ r.blockNum → r ∈ s'.transactions
  receipts : ∀ x ∈ s.receipts, cut ≤ x.blockNum → x ∈ s'.receipts

namespace Spares
variable {cut upto : Int} {s s' s'' : Store}

theorem refl : Spares cut s s := ⟨fun _ mem _ => mem,fun _ mem _ => mem⟩

theorem trans (early : Spares cut s s') (late : Spares cut s' s'') : Spares cut s s'' where
  transactions := fun r mem from' => late.transactions r (early.transactions r mem from') from'
  receipts := fun x mem from' => late.receipts x (early.receipts x mem from') from'

theorem pruneTransactions (le : upto ≤ cut) : Spares cut s (s.pruneTransactions upto) where
  transactions := fun _ mem past => by
    refine List.mem_filter.mpr ⟨mem,?_⟩
    simp only [Bool.not_eq_true', decide_eq_false_iff_not]
    omega
  receipts := fun _ mem _ => mem

theorem pruneReceipts (le : upto ≤ cut) : Spares cut s (s.pruneReceipts upto) where
  transactions := fun _ mem _ => mem
  receipts := fun _ mem past => by
    refine List.mem_filter.mpr ⟨mem,?_⟩
    simp only [Bool.not_eq_true', decide_eq_false_iff_not]
    omega

end Spares

namespace Cleaner

def cutOff (keepDays : Int) (s : Store) : Int := narrow (s.minIrreversible.getD 0 - keepBlocksOf keepDays)

def Rests (c : Cleaner) : Prop := c.lastIrrev ≠ 0 ∧ c.uptoBlock ≤ c.minBlock

instance (c : Cleaner) : Decidable c.Rests := inferInstanceAs (Decidable (_ ∧ _))

structure Standstill (keepDays : Int) (s : Store) (c : Cleaner) : Prop where
  standing : c.connection.working.minIrreversible = s.minIrreversible
  keepBlocks : c.keepBlocks = keepBlocksOf keepDays
  looked : (c.lastIrrev = 0 ∧ c.uptoBlock ≤ c.minBlock) ∨
    (0 < c.lastIrrev ∧ s.minIrreversible = some c.lastIrrev ∧ c.uptoBlock = cutOff keepDays s)

section Turns
variable {c c' c'' : Cleaner} {keepDays : Int} {s : Store} {e : Event}

theorem freshStandstill : Standstill keepDays s (fresh keepDays s) := ⟨rfl,rfl,Or.inl ⟨rfl,Int.le_refl 0⟩⟩

theorem readLowest {n : Option Int} {k : Int} (read : getInt n = .ok k) (positive : 0 < k) : n = some k := by
  cases n with
  | none =>
    cases read
    exact absurd positive (Int.lt_irrefl 0)
  | some i => rw [getIntSome read]

theorem turnedStandstill (still : Standstill keepDays s c) (turned : Turned c c') : Standstill keepDays s c' := by
  obtain ⟨standing,keepBlocks,looked⟩ := still
  cases turned with
  | pruned goes =>
    refine ⟨standing,keepBlocks,Or.inr (looked.resolve_left fun none => ?_)⟩
    exact absurd goes (Int.not_lt.mpr none.2)
  | idle => exact ⟨standing,keepBlocks,looked⟩
  | begun ended read moved oldest =>
    rename_i lib minBlock
    have positive : 0 < lib := by
      rcases looked with none | found <;> omega
    have lowest := standing ▸ readLowest read positive
    refine ⟨standing,keepBlocks,Or.inr ⟨positive,lowest,?_⟩⟩
    simp only [cutOff, lowest, keepBlocks, Option.getD_some]

theorem standstillStep (still : Standstill keepDays s c) (writer : e.ByWriter) (ok : c.step e = some c') :
    Standstill keepDays s c' := by
  cases e with
  | turn =>
    simp only [step] at ok
    split at ok
    · rename_i next done
      cases ok
      exact turnedStandstill still (turned done)
    · cases ok
  | elsewhere change =>
    cases ok
    obtain ⟨w,now,m,rfl⟩ := writer
    refine ⟨?_,still.keepBlocks,still.looked⟩
    change (w.effect now m c.connection.working).minIrreversible = _
    rw [Store.standingLowest, Writer.effectStanding, ← Store.standingLowest]
    exact still.standing

theorem turnSpares (still : Standstill keepDays s c) (turned : Turned c c') :
    Spares (cutOff keepDays s) c.connection.working c'.connection.working := by
  cases turned with
  | pruned goes =>
    obtain ⟨_,_,upto⟩ := still.looked.resolve_left fun none => absurd goes (Int.not_lt.mpr none.2)
    have le : c.deleteUpto ≤ cutOff keepDays s := upto ▸ deleteUptoLe
    exact ((Spares.pruneTransactions le).trans (Spares.pruneReceipts le)).trans (Spares.pruneReceipts le)
  | idle => exact .refl
  | begun => exact .refl

/- The LIB that was read is the one that is read again, so a pass that has ended is the last. -/
theorem turnRests (still : Standstill keepDays s c) (rests : c.Rests) (turned : Turned c c') :
    c'.Rests ∧ c'.connection.working = c.connection.working := by
  obtain ⟨seen,ended⟩ := rests
  cases turned with
  | pruned goes => exact absurd goes (Int.not_lt.mpr ended)
  | idle => exact ⟨⟨seen,ended⟩,rfl⟩
  | begun _ read moved _ =>
    obtain ⟨_,lowest,_⟩ := still.looked.resolve_left fun none => seen none.1
    rw [still.standing, lowest] at read
    rw [getIntSome read] at moved
    exact absurd moved (Int.lt_irrefl _)

theorem restsStep (still : Standstill keepDays s c) (rests : c.Rests) (ok : c.step e = some c') : c'.Rests := by
  cases e with
  | turn =>
    simp only [step] at ok
    split at ok
    · rename_i next done
      cases ok
      exact (turnRests still rests (turned done)).1
    · cases ok
  | elsewhere change =>
    cases ok
    exact rests

theorem onePass (run later : List Event) (writers : ∀ e ∈ run ++ later, e.ByWriter)
    (ran : run.foldlM step (fresh keepDays s) = some c) (since : later.foldlM step c = some c')
    (ok : c'.turn = .ok c'') :
    Spares (cutOff keepDays s) c'.connection.working c''.connection.working ∧
      (c.Rests → c''.connection.working = c'.connection.working) := by
  have first : Along step (fun _ e => e.ByWriter) (fresh keepDays s) run :=
    Along.each fun e mem => writers e (List.mem_append_left _ mem)
  have still : Standstill keepDays s c := runPreserves (Standstill keepDays s) standstillStep freshStandstill first ran
  have along : Along step (fun _ e => e.ByWriter) c later :=
    Along.each fun e mem => writers e (List.mem_append_right _ mem)
  have still' : Standstill keepDays s c' := runPreserves (Standstill keepDays s) standstillStep still along since
  refine ⟨turnSpares still' (turned ok),fun rests => ?_⟩
  have held : Standstill keepDays s c' ∧ c'.Rests :=
    runPreserves (fun c => Standstill keepDays s c ∧ c.Rests)
      (fun held writer ok => ⟨standstillStep held.1 writer ok,restsStep held.1 held.2 ok⟩) ⟨still,rests⟩ along since
  exact (turnRests still' held.2 (turned ok)).2

def young : TraceRow := ⟨8,100000,"","",⟨"",100000,"","","",[]⟩⟩

def behind : Store := ⟨[⟨1,0,100000,1,0⟩],[⟨7,99995,"","",⟨"",99995,"","","",[]⟩⟩,young],[],[],[]⟩

def looked : Cleaner := ⟨⟨behind,behind⟩,0,100000,99995,100000⟩

def lagging : TraceRow := ⟨9,5,"","",⟨"",5,"","","",[]⟩⟩

def ahead : Writer := { Writer.started with insertTransactions := [lagging] }

def farBlock : BlockCompleted := ⟨900000,"2020-03-24T00:00:00","000dbba0",899999⟩

def rested (rows : List TraceRow) : Cleaner :=
  ⟨⟨{ behind with transactions := rows },{ behind with transactions := rows }⟩,0,100000,100000,100000⟩

theorem onePassBehind : looked.turn = .ok (rested [young]) ∧
    Spares (cutOff 0 behind) looked.connection.working (rested [young]).connection.working ∧
    ∃ c, (rested [young,lagging]).turn = .ok c ∧ c.connection.working = (rested [young,lagging]).connection.working := by
  have deletes : looked.turn = .ok (rested [young]) := by decide +kernel
  have turn : Event.turn.ByWriter := trivial
  have stores : (Event.elsewhere (ahead.effect ⟨0,0⟩ (.blockCompleted farBlock))).ByWriter := ⟨ahead,_,_,rfl⟩
  have ended : [Event.turn,.turn].foldlM step (fresh 0 behind) = some (rested [young]) := by decide +kernel
  refine ⟨deletes,?_,rested [young,lagging],by decide +kernel,?_⟩
  · exact (onePass [.turn] [] (by simp [turn]) (by decide +kernel) rfl deletes).1
  · exact (onePass [.turn,.turn] [.elsewhere (ahead.effect ⟨0,0⟩ (.blockCompleted farBlock)),.turn]
      (by simp [turn, stores]) ended (by decide +kernel) (by decide +kernel)).2 (by decide)

end Turns
end Cleaner
end FioRelic.Prototype

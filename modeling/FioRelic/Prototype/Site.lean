import FioRelic.Prototype.OnePass
import FioRelic.Prototype.Restarts

/-! A site: a master that may die and return or lose its session, Chronicle, backup writers,
and a cleaner that may be started again, on one database. What a backup or the cleaner
commits comes between the messages of the master, so it also deletes what the master has
open. A backup comes with any members and buffers, also those of one that lost its session. -/
namespace FioRelic.Prototype
open Relational

structure Site where
  writer : Writer
  chronicle : Chronicle
  cleaner : Cleaner
  deriving DecidableEq, Repr

structure Trims (spared : Int → Prop) (sourceId : Int) (s s' : Store) : Prop where
  standing : s'.standing = s.standing
  own : (s'.sync.find? fun r => r.sourceid == sourceId) = s.sync.find? fun r => r.sourceid == sourceId
  trimmed : ∃ keep : Int → Bool, (∀ b, spared b → keep b = true) ∧
    (s'.transactions = s.transactions.filter fun r => keep r.blockNum) ∧
      s'.receipts = s.receipts.filter fun x => keep x.blockNum

section Trimming
variable {spared : Int → Prop} {sourceId n : Int} {s s' : Store}

theorem Trims.rest (standing : s'.standing = s.standing)
    (own : (s'.sync.find? fun r => r.sourceid == sourceId) = s.sync.find? fun r => r.sourceid == sourceId)
    (transactions : s'.transactions = s.transactions) (receipts : s'.receipts = s.receipts) :
    Trims spared sourceId s s' :=
  ⟨standing,own,fun _ => true,fun _ _ => rfl,by simp [transactions],by simp [receipts]⟩

theorem Trims.refl : Trims spared sourceId s s := .rest rfl rfl rfl rfl

theorem Trims.below (free : ∀ b, spared b → n ≤ b) (sync : s'.sync = s.sync)
    (transactions : s'.transactions = (s.pruneTransactions n).transactions)
    (receipts : s'.receipts = (s.pruneReceipts n).receipts) : Trims spared sourceId s s' := by
  have standing : s'.standing = s.standing := by
    unfold Store.standing
    rw [sync]
  refine ⟨standing,by rw [sync],fun b => !decide (b < n),fun b left => ?_,transactions,receipts⟩
  have late := free b left
  simp only [Bool.not_eq_true', decide_eq_false_iff_not]
  omega

theorem Seated.trimmed {m : Int} (seated : Seated sourceId m s) (trims : Trims spared sourceId s s') :
    Seated sourceId m s' := by
  unfold Seated
  rwa [trims.own]

theorem Exact.after {c : Chronicle} {rows : List TraceRow} {m : Int} (held : Exact (c.Due spared) s rows m)
    (trims : Trims spared sourceId s s') : Exact (c.Due spared) s' rows m := by
  obtain ⟨keep,spares,transactions,receipts⟩ := trims.trimmed
  exact held.trimmed (fun r due => spares r.blockNum due.1) transactions receipts

theorem Trims.stored (trims : Trims spared sourceId s s') {r : TraceRow} (left : spared r.blockNum)
    (stored : r ∈ s.transactions) : r ∈ s'.transactions := by
  obtain ⟨keep,spares,transactions,_⟩ := trims.trimmed
  rw [transactions]
  exact List.mem_filter.mpr ⟨stored,spares r.blockNum left⟩

end Trimming

namespace Cleaner

def deletion (c : Cleaner) (s : Store) : Store :=
  if c.minBlock < c.uptoBlock then
    ((s.pruneTransactions c.deleteUpto).pruneReceipts c.deleteUpto).pruneReceipts c.deleteUpto
  else s

theorem turnDeletes {c c' : Cleaner} {s : Store} (sees : c.connection = ⟨s,s⟩) (turned : Turned c c') :
    c'.connection = ⟨c.deletion s,c.deletion s⟩ := by
  unfold deletion
  cases turned with
  | pruned goes =>
    rw [if_pos goes]
    simp [prune, sees, Connection.execute, Connection.commit]
  | idle ended =>
    rw [if_neg (Int.not_lt.mpr ended), sees]
    rfl
  | begun ended =>
    rw [if_neg (Int.not_lt.mpr ended)]
    simp [sees, Connection.commit]

theorem deletionTrims {c : Cleaner} {spared : Int → Prop} {sourceId : Int} {s : Store}
    (free : c.minBlock < c.uptoBlock → ∀ b, spared b → c.deleteUpto ≤ b) : Trims spared sourceId s (c.deletion s) := by
  unfold deletion
  split
  · rename_i goes
    exact .below (free goes) rfl rfl (by simp [Store.pruneReceipts, Store.pruneTransactions, List.filter_filter])
  · exact .refl

end Cleaner

namespace Writer

def prunesUpto (w : Writer) : Message → Option Int
  | .blockCompleted json =>
    if w.irreversible < json.lastIrreversible ∧ 0 ≤ w.keepBlocks then
      some (narrow (json.lastIrreversible - w.keepBlocks))
    else none
  | _ => none

section Backup
variable {b : Writer} {spared : Int → Prop} {sourceId : Int} {now : Clock} {m : Message} {s : Store}

theorem updSyncForkOther {n other : Int} (differ : sourceId ≠ other) :
    ((s.updSyncFork n other).sync.find? fun r => r.sourceid == sourceId) =
      s.sync.find? fun r => r.sourceid == sourceId := by
  have found : ∀ rows : List Sync,
      ((rows.map fun r => if r.sourceid = other then { r with blockNum := n } else r).find? fun r =>
        r.sourceid == sourceId) = rows.find? fun r => r.sourceid == sourceId := by
    intro rows
    induction rows with
    | nil => rfl
    | cons r rest ih =>
      by_cases own : r.sourceid = other
      · have no : (r.sourceid == sourceId) = false := by simpa [own] using Ne.symm differ
        simpa [-List.find?_map, own, no, Ne.symm differ] using ih
      · by_cases same : r.sourceid = sourceId
        · simp [-List.find?_map, same, differ]
        · simpa [-List.find?_map, own, same] using ih
  exact found s.sync

theorem takenTrims {json : BlockCompleted} (slave : b.iAmMaster = false)
    (free : ∀ n ∈ b.prunesUpto (.blockCompleted json), ∀ k, spared k → n ≤ k) :
    Trims spared sourceId b.connection.working (b.taken json).connection.working := by
  have sent : (b.taken json).connection.working =
      (b.cleaning json.lastIrreversible b.connection.working).insrtBkpTraces b.insertBkpTraces := by
    simp [taken, sending, slave, Connection.execute]
  rw [sent]
  unfold cleaning
  split
  · rename_i moved
    split
    · rename_i keeps
      have upto := free (narrow (json.lastIrreversible - b.keepBlocks)) (by simp [prunesUpto, moved.1, keeps])
      exact .below upto rfl rfl rfl
    · exact .rest rfl rfl rfl rfl
  · exact .rest rfl rfl rfl rfl

theorem backupTrims (slave : b.iAmMaster = false) (other : sourceId ≠ b.sourceId)
    (free : ∀ n ∈ b.prunesUpto m, ∀ k, spared k → n ≤ k) :
    Trims spared sourceId b.connection.working (b.onRead now m).1.connection.working := by
  have role : b.checkRole now = b := by
    unfold checkRole
    rw [slave]
    rfl
  have result : (∃ v, Processed now b m (b.onRead now m).1 v) ∨ (b.onRead now m).1 = b ∨
      ∃ json, m = .blockCompleted json ∧ b.Commits m ∧ Looks now b json ∧ (b.onRead now m).1 = b.completed json := by
    unfold onRead
    rw [role]
    exact outcome
  rcases result with ⟨v,call⟩ | kept | ⟨json,rfl,_,_,left⟩
  · generalize (b.onRead now m).1 = b' at call
    cases call with
    | ignored => exact .refl
    | @forked n =>
      have forks : (b.forked n).connection.working =
          (b.connection.working.forkBkp n).updSyncFork (n - 1) b.sourceId := by
        simp [forked, forking, slave, Connection.execute, Connection.commit]
      rw [forks]
      exact .rest Store.updSyncForkStanding (updSyncForkOther other) rfl rfl
    | skipped => exact .refl
    | traced =>
      rw [tracedConnection.1]
      exact .refl
    | batched => exact takenTrims slave free
    | completed => exact takenTrims slave free
    | unknown => exact .refl
  · rw [kept]
    exact .refl
  · rw [left]
    exact takenTrims slave free

theorem effectTrims (slave : b.iAmMaster = false) (other : sourceId ≠ b.sourceId)
    (free : ∀ n ∈ b.prunesUpto m, ∀ k, spared k → n ≤ k) : Trims spared sourceId s (b.effect now m s) :=
  backupTrims (b := { b with connection := ⟨s,s⟩ }) slave other free

end Backup

section Master
variable {w : Writer} {spared : Int → Prop} {c : Chronicle}

theorem resumesTrimmed {change : Store → Store} (held : w.Resumes spared c)
    (trims : ∀ s, Trims spared w.sourceId s (change s)) :
    Resumes { w with connection := w.connection.elsewhere change } spared c :=
  { held with
    committed := held.committed.after (trims _)
    working := held.working.after (trims _)
    seated := ⟨held.seated.1.trimmed (trims _),held.seated.2.trimmed (trims _)⟩
    kept := fun r mem left => (held.kept r mem left).imp_left ((trims _).stored left.1)
    risked := held.risked.imp_left fun stored r mem left low => (trims _).stored left.1 (stored r mem left low) }

theorem onReadCommitted (w : Writer) (now : Clock) (m : Message) :
    (w.onRead now m).1.connection.committed = w.connection.committed ∨
    (w.onRead now m).1.connection.committed = (w.onRead now m).1.connection.working := by
  have asking : Asked now w (w.checkRole now) := asked
  have same : (w.checkRole now).connection = w.connection := (askedCommits (m := m) asking).1
  have result : (∃ v, Processed now (w.checkRole now) m (w.onRead now m).1 v) ∨
      (w.onRead now m).1 = w.checkRole now ∨ ∃ json, m = .blockCompleted json ∧
        (w.checkRole now).Commits m ∧ Looks now (w.checkRole now) json ∧
        (w.onRead now m).1 = (w.checkRole now).completed json := outcome
  rcases result with ⟨v,call⟩ | kept | ⟨json,_,_,_,left⟩
  · rcases processedCommits call with ⟨_,committed,_⟩ | ⟨_,committed,_⟩
    · exact Or.inl (committed.trans (congrArg Connection.committed same))
    · exact Or.inr committed
  · exact Or.inl ((congrArg (fun u => u.connection.committed) kept).trans (congrArg Connection.committed same))
  · right
    rw [left]
    rfl

end Master
end Writer

namespace Site

def opened (keepDays : Int) (s : Store) (w : Writer) : Site :=
  ⟨w,Chronicle.above w.confirmedBlock,Cleaner.fresh keepDays s⟩

def elsewhere (f : Site) (change : Store → Store) : Site :=
  { f with
    writer := { f.writer with connection := f.writer.connection.elsewhere change }
    cleaner := { f.cleaner with connection := f.cleaner.connection.elsewhere change } }

inductive Event where
  | incident (i : Incident)
  | backup (b : Writer) (now : Clock) (m : Message)
  | turn
  | cleanerAgain
  deriving DecidableEq, Repr

def step (o : Options) (keepDays : Int) (f : Site) : Event → Option Site
  | .incident i => match i.step o (f.writer,f.chronicle) with
    | some (w,c) => some ⟨w,c,{ f.cleaner with connection := ⟨w.connection.committed,w.connection.committed⟩ }⟩
    | none => none
  | .backup b now m => some (f.elsewhere (b.effect now m))
  | .turn => match f.cleaner.turn with
    | .ok cleaner => some { f.elsewhere f.cleaner.deletion with cleaner := cleaner }
    | .error _ => none
  | .cleanerAgain => some { f with cleaner := .fresh keepDays f.writer.connection.committed }

def Regular (bound : Int) (f : Site) : Event → Prop
  | .incident i => i.Regular (f.writer,f.chronicle)
  | .backup b _ m => b.iAmMaster = false ∧ f.writer.sourceId ≠ b.sourceId ∧ ∀ n ∈ b.prunesUpto m, n ≤ bound
  | .turn => True
  | .cleanerAgain => True

instance (bound : Int) (f : Site) : (e : Event) → Decidable (f.Regular bound e)
  | .incident i => inferInstanceAs (Decidable (i.Regular (f.writer,f.chronicle)))
  | .backup b _ m => inferInstanceAs (Decidable
      (b.iAmMaster = false ∧ f.writer.sourceId ≠ b.sourceId ∧ ∀ n ∈ b.prunesUpto m, n ≤ bound))
  | .turn => isTrue trivial
  | .cleanerAgain => isTrue trivial

structure Shared (o : Options) (keepDays bound : Int) (s : Store) (f : Site) : Prop where
  resumes : f.writer.Resumes (fun b => bound ≤ b) f.chronicle
  source : f.writer.sourceId = o.sourceId
  working : f.writer.connection.working.standing = s.standing
  committed : f.writer.connection.committed.standing = s.standing
  sees : f.cleaner.connection = ⟨f.writer.connection.committed,f.writer.connection.committed⟩
  still : Cleaner.Standstill keepDays s f.cleaner

section Steps
variable {o : Options} {keepDays bound : Int} {s : Store} {f f' : Site} {w : Writer} {e : Event}

theorem openedShared (start : Writer.initializeWriter o s = .ok w) (master : w.iAmMaster = true)
    (traces : o.noTraces = false) (empty : s.transactions = [] ∧ s.receipts = []) :
    Shared o keepDays bound s (opened keepDays s w) := by
  have resumes : w.Resumes (fun b => bound ≤ b) (Chronicle.above w.confirmedBlock) :=
    Writer.resumesStart start master traces empty
  obtain ⟨own,_,rfl⟩ := Writer.initialized start
  exact ⟨resumes,rfl,rfl,rfl,rfl,Cleaner.freshStandstill⟩

theorem incidentStanding {i : Incident} {c c' : Chronicle} {w' : Writer}
    (standing : w.connection.working.standing = s.standing ∧ w.connection.committed.standing = s.standing)
    (ok : i.step o (w,c) = some (w',c')) :
    w'.connection.working.standing = s.standing ∧ w'.connection.committed.standing = s.standing := by
  have read : ∀ now m, (w.onRead now m).1.connection.working.standing = s.standing ∧
      (w.onRead now m).1.connection.committed.standing = s.standing := by
    intro now m
    have working : (w.onRead now m).1.connection.working.standing = s.standing :=
      Writer.onReadStanding.trans standing.1
    rcases Writer.onReadCommitted w now m with same | same
    · exact ⟨working,same ▸ standing.2⟩
    · exact ⟨working,same ▸ working⟩
  cases i with
  | message now m =>
    simp only [Incident.step] at ok
    split at ok
    · rename_i returned
      cases ok
      have held := read now m
      rw [returned] at held
      exact held
    · cases ok
  | reconnected =>
    cases ok
    exact ⟨standing.2,standing.2⟩
  | restart death resume =>
    have left : (death.leaves (w,c)).1.connection.committed.standing = s.standing := by
      cases death with
      | idle => exact standing.2
      | during now m => exact (read now m).2
      | forking => exact standing.1
    simp only [Incident.step] at ok
    split at ok
    · rename_i start
      cases ok
      obtain ⟨own,_,rfl⟩ := Writer.initialized start
      exact ⟨left,left⟩
    · cases ok

theorem seenStill {c : Cleaner} {m : Store} (still : Cleaner.Standstill keepDays s c)
    (standing : m.standing = s.standing) : Cleaner.Standstill keepDays s { c with connection := ⟨m,m⟩ } := by
  refine ⟨?_,still.keepBlocks,still.looked⟩
  change m.minIrreversible = s.minIrreversible
  rw [Store.standingLowest, standing, ← Store.standingLowest]

theorem elsewhereShared {change : Store → Store} (shared : Shared o keepDays bound s f)
    (trims : ∀ m, Trims (fun b => bound ≤ b) f.writer.sourceId m (change m)) :
    Shared o keepDays bound s (f.elsewhere change) := by
  have committed := (trims f.writer.connection.committed).standing.trans shared.committed
  have sees : f.cleaner.connection.elsewhere change =
      ⟨change f.writer.connection.committed,change f.writer.connection.committed⟩ := by
    rw [shared.sees]
    rfl
  have still : Cleaner.Standstill keepDays s { f.cleaner with connection := f.cleaner.connection.elsewhere change } := by
    rw [sees]
    exact seenStill shared.still committed
  exact {
    resumes := Writer.resumesTrimmed shared.resumes trims
    source := shared.source
    working := (trims _).standing.trans shared.working
    committed := committed
    sees := sees
    still := still }

theorem sharedStep (traces : o.noTraces = false) (low : Cleaner.cutOff keepDays s ≤ bound)
    (shared : Shared o keepDays bound s f) (regular : f.Regular bound e) (ok : f.step o keepDays e = some f') :
    Shared o keepDays bound s f' := by
  cases e with
  | incident i =>
    simp only [step] at ok
    split at ok
    · rename_i w c stepped
      cases ok
      obtain ⟨resumes,source⟩ := Writer.resumesStep traces ⟨shared.resumes,shared.source⟩ regular stepped
      obtain ⟨working,committed⟩ := incidentStanding ⟨shared.working,shared.committed⟩ stepped
      exact ⟨resumes,source,working,committed,rfl,seenStill shared.still committed⟩
    · cases ok
  | backup b now m =>
    cases ok
    obtain ⟨slave,other,few⟩ := regular
    exact elsewhereShared shared fun _ => Writer.effectTrims slave other fun n mem k past =>
      Int.le_trans (few n mem) past
  | turn =>
    simp only [step] at ok
    split at ok
    · rename_i cleaner done
      cases ok
      have turned := Cleaner.turned done
      have trims : ∀ m, Trims (fun b => bound ≤ b) f.writer.sourceId m (f.cleaner.deletion m) := by
        refine fun m => Cleaner.deletionTrims fun goes b past => ?_
        obtain ⟨_,_,upto⟩ := shared.still.looked.resolve_left fun none => absurd goes (Int.not_lt.mpr none.2)
        exact Int.le_trans (upto ▸ Cleaner.deleteUptoLe) (Int.le_trans low past)
      exact { elsewhereShared shared trims with
        sees := Cleaner.turnDeletes shared.sees turned
        still := Cleaner.turnedStandstill shared.still turned }
    · cases ok
  | cleanerAgain =>
    cases ok
    refine { shared with sees := rfl, still := ?_ }
    exact seenStill (c := .fresh keepDays s) Cleaner.freshStandstill shared.committed

theorem siteStored {run : List Event} (start : Writer.initializeWriter o s = .ok w) (master : w.iAmMaster = true)
    (traces : o.noTraces = false) (empty : s.transactions = [] ∧ s.receipts = [])
    (low : Cleaner.cutOff keepDays s ≤ bound)
    (regular : Along (step o keepDays) (Regular bound) (opened keepDays s w) run)
    (ran : run.foldlM (step o keepDays) (opened keepDays s w) = some f) :
    Exact (fun r => bound ≤ r.blockNum ∧ r ∉ f.chronicle.lost) f.writer.connection.committed f.chronicle.rows
        f.chronicle.acked ∧
      ∀ r ∈ f.chronicle.rows, bound ≤ r.blockNum → r ∉ f.chronicle.lost → r.blockNum ≤ f.chronicle.chain.last →
        r ∉ f.writer.connection.committed.transactions →
          f.chronicle.chain.last + 1 < r.blockNum + f.writer.ackEvery := by
  have shared := runPreserves (Shared o keepDays bound s)
    (fun shared regular ok => sharedStep traces low shared regular ok)
    (openedShared start master traces empty) regular ran
  exact ⟨shared.resumes.stored,
    fun r mem left kept completed missing => shared.resumes.few mem ⟨left,kept⟩ completed missing⟩

end Steps

def lagged : Store := ⟨[⟨1,99990,100000,1,0⟩,⟨2,99990,100000,0,0⟩],[],[],[],[]⟩

def laggedMaster : Writer := { Writer.fresh defaultOptions lagged with
  confirmedBlock := 99990, unconfirmedBlock := 99990, irreversible := 100000, iAmMaster := true }

def spare : Writer := { Writer.fresh ⟨2,1,0,false⟩ lagged with
  confirmedBlock := 100005, unconfirmedBlock := 100005, irreversible := 99995
  insertBkpTraces := [paidRow 100005 "c3"] }

def busy : List Event := [.incident (.message ⟨0,0⟩ (.txTrace (paid 99991 "a1"))),
  .backup spare ⟨0,0⟩ (.blockCompleted ⟨100006,"2020-03-24T00:00:00","000186a6",99996⟩),
  .incident (.message ⟨0,0⟩ (.blockCompleted ⟨99991,"2020-03-24T00:00:00","00018697",99990⟩)),.turn,
  .incident (.message ⟨0,0⟩ (.txTrace (Writer.later 8 100001))),.turn,.incident (.restart .idle 99991),.cleanerAgain,.turn,
  .incident (.message ⟨0,0⟩ (.txTrace (Writer.later 9 100000))),
  .incident (.message ⟨0,0⟩ (.blockCompleted ⟨100000,"2020-03-24T00:00:00","000186a0",100000⟩)),.incident .reconnected,
  .incident (.message ⟨0,0⟩ (.txTrace (Writer.later 8 100001))),.backup spare ⟨0,0⟩ (.fork 100004),
  .incident (.message ⟨0,0⟩ (.blockCompleted ⟨100001,"2020-03-24T00:00:00","000186a1",100000⟩)),.turn]

theorem siteStoredBusy : ∃ f, busy.foldlM (step defaultOptions 0) (opened 0 lagged laggedMaster) = some f ∧
    f.chronicle.acked = 100001 ∧ f.chronicle.lost = [Writer.laterRow 9 100000] ∧
    paidRow 99991 "a1" ∈ f.chronicle.rows ∧ paidRow 99991 "a1" ∉ f.writer.connection.committed.transactions ∧
    Exact (fun r => 100000 ≤ r.blockNum ∧ r ∉ f.chronicle.lost) f.writer.connection.committed f.chronicle.rows
        f.chronicle.acked ∧
      ∀ r ∈ f.chronicle.rows, 100000 ≤ r.blockNum → r ∉ f.chronicle.lost → r.blockNum ≤ f.chronicle.chain.last →
        r ∉ f.writer.connection.committed.transactions →
          f.chronicle.chain.last + 1 < r.blockNum + f.writer.ackEvery := by
  have regular : Along (step defaultOptions 0) (Regular 100000) (opened 0 lagged laggedMaster) busy := by decide +kernel
  have start : Writer.initializeWriter defaultOptions lagged = .ok laggedMaster := by decide +kernel
  obtain ⟨f,ran⟩ := Option.isSome_iff_exists.mp (by decide +kernel :
    (busy.foldlM (step defaultOptions 0) (opened 0 lagged laggedMaster)).isSome = true)
  have left : (busy.foldlM (step defaultOptions 0) (opened 0 lagged laggedMaster)).all (fun f => decide
      (f.chronicle.acked = 100001 ∧ f.chronicle.lost = [Writer.laterRow 9 100000] ∧
        paidRow 99991 "a1" ∈ f.chronicle.rows ∧
        paidRow 99991 "a1" ∉ f.writer.connection.committed.transactions)) = true := by decide +kernel
  rw [ran] at left
  obtain ⟨acked,lost,sent,deleted⟩ := of_decide_eq_true left
  exact ⟨f,ran,acked,lost,sent,deleted,siteStored start rfl rfl ⟨rfl,rfl⟩ (by decide +kernel) regular ran⟩

end Site
end FioRelic.Prototype

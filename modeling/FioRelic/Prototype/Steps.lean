import FioRelic.Prototype.Writer
import FioRelic.Relational.Run

/-! What the start and a message can do, said once: the writer after every call that returns. -/
namespace FioRelic.Prototype
open Relational

def Json.row (json : Json) : Option TraceRow :=
  if Writer.executed json.status then
    match json.actionTraces, getBlockTime json.blockTimestamp with
    | atrace :: _, .ok blockTime => some ⟨atrace.globalSequence,json.blockNum,blockTime,json.id,json⟩
    | _, _ => none
  else none

theorem getIntSome {n k : Int} (ok : getInt (some n) = .ok k) : k = n := by
  simp only [getInt] at ok
  split at ok <;> cases ok
  rfl

theorem bindReturns {α β : Type} {x : Except Thrown α} {f : α → Except Thrown β} {b : β} :
    x >>= f = .ok b ↔ ∃ a, x = .ok a ∧ f a = .ok b := by
  cases x <;> simp [bind, Except.bind]

namespace TraceRow

def receipts (r : TraceRow) : List Receipt := r.trace.actionTraces.map fun atrace =>
  ⟨r.seq,r.blockNum,r.blockTime,atrace.account,atrace.name,atrace.receiver,atrace.recvSequence⟩

end TraceRow

namespace Writer

def saved (w : Writer) (r : TraceRow) : Writer := w.saveTrace r.seq r.blockNum r.blockTime r.trace

def traced (w : Writer) (r : TraceRow) : Writer :=
  if w.iAmMaster then w.saved r else { w with insertBkpTraces := w.insertBkpTraces ++ [r] }

def ignored (w : Writer) : Writer := { w with connection := w.connection.commit, justCommitted := true }

def forking (w : Writer) (blockNum : Int) (s : Store) : Store :=
  (if w.iAmMaster then (s.forkReceipts blockNum).forkTransactions blockNum else s.forkBkp blockNum).updSyncFork
    (blockNum - 1) w.sourceId

def forked (w : Writer) (blockNum : Int) : Writer :=
  { w with
    connection := (w.connection.execute (w.forking blockNum)).commit
    justCommitted := true
    confirmedBlock := blockNum - 1
    unconfirmedBlock := blockNum - 1
    insertTransactions := []
    insertReceipts := []
    upsertRecvSeqMax := [] }

def ackEveryAt (w : Writer) (json : BlockCompleted) : Int :=
  if json.lastIrreversible < json.blockNum then 1 else w.ackEvery

def cleaning (w : Writer) (n : Int) (s : Store) : Store :=
  if w.irreversible < n ∧ w.iAmMaster = false then
    if 0 ≤ w.keepBlocks then
      ((s.cleanBkp).pruneReceipts (narrow (n - w.keepBlocks))).pruneTransactions (narrow (n - w.keepBlocks))
    else s.cleanBkp
  else s

def sending (w : Writer) (s : Store) : Store :=
  if w.iAmMaster then
    if w.insertTransactions.isEmpty then s
    else ((s.insertTransactions w.insertTransactions).insertReceipts w.insertReceipts).insertRecvSeqMax w.upsertRecvSeqMax
  else s.insrtBkpTraces w.insertBkpTraces

def taken (w : Writer) (json : BlockCompleted) : Writer :=
  { w with
    connection := (w.connection.execute (w.cleaning json.lastIrreversible)).execute w.sending
    ackEvery := w.ackEveryAt json
    irreversible := max w.irreversible json.lastIrreversible
    unconfirmedBlock := json.blockNum
    insertBkpTraces := if w.iAmMaster then w.insertBkpTraces else []
    insertTransactions := if w.iAmMaster then [] else w.insertTransactions
    insertReceipts := if w.iAmMaster ∧ w.insertTransactions ≠ [] then [] else w.insertReceipts
    upsertRecvSeqMax := if w.iAmMaster ∧ w.insertTransactions ≠ [] then [] else w.upsertRecvSeqMax }

def completed (w : Writer) (json : BlockCompleted) : Writer :=
  { w.taken json with
    connection := (w.taken json).connection.commit
    justCommitted := true
    confirmedBlock := json.blockNum }

def Commits (w : Writer) : Message → Prop
  | .blockCompleted json => w.confirmedBlock < json.blockNum ∧ w.ackEveryAt json ≤ json.blockNum - w.confirmedBlock
  | _ => False

instance (w : Writer) (m : Message) : Decidable (w.Commits m) := by
  unfold Commits
  split <;> infer_instance

def Looks (now : Clock) (w : Writer) (json : BlockCompleted) : Prop :=
  !w.iAmMaster ∧ json.lastIrreversible < json.blockNum ∧ w.retiredTime + 60 * second < now.system

instance (now : Clock) (w : Writer) (json : BlockCompleted) : Decidable (Looks now w json) := by
  unfold Looks
  infer_instance

section Equations
variable {w w' : Writer} {now : Clock} {json : BlockCompleted} {n v : Int} {r : TraceRow}

theorem moveIrreversibleEq : w.moveIrreversible n =
    { w with connection := w.connection.execute (w.cleaning n), irreversible := max w.irreversible n } := by
  unfold moveIrreversible cleaning
  by_cases moved : w.irreversible < n
  · rw [Int.max_eq_right (Int.le_of_lt moved)]
    cases master : w.iAmMaster <;> by_cases keeps : 0 ≤ w.keepBlocks <;> simp [moved, keeps, execute, Connection.execute]
  · rw [Int.max_eq_left (Int.not_lt.mp moved)]
    simp [moved, Connection.execute]

theorem sendBatchEq : w.sendBatch =
    { w with
      connection := w.connection.execute w.sending
      insertBkpTraces := if w.iAmMaster then w.insertBkpTraces else []
      insertTransactions := if w.iAmMaster then [] else w.insertTransactions
      insertReceipts := if w.iAmMaster ∧ w.insertTransactions ≠ [] then [] else w.insertReceipts
      upsertRecvSeqMax := if w.iAmMaster ∧ w.insertTransactions ≠ [] then [] else w.upsertRecvSeqMax } := by
  obtain ⟨connection,sourceId,noTraces,ackEvery,iAmMaster,justCommitted,keepBlocks,retiredTime,confirmedBlock,
    irreversible,unconfirmedBlock,bkp,transactions,receipts,recvSeqMax⟩ := w
  cases iAmMaster
  · cases bkp <;> simp [sendBatch, sending, execute, Connection.execute, Store.insrtBkpTraces, insertBatch]
  · cases transactions <;> simp [sendBatch, sendTracesBatch, sending, execute, Connection.execute]

theorem forkEq : w.fork n =
    if w.confirmedBlock ≤ w.irreversible then (w.ignored,.ok (narrow (n - 1)))
    else (w.forked n,.ok (narrow (n - 1))) := by
  cases master : w.iAmMaster <;> simp [fork, forked, forking, ignored, commit, execute, Connection.execute, Connection.commit,
    forkTraces, master]

theorem checkMasterThrows : checkMaster now w = (w,.error (.exception "SYNC corrupted")) := by
  unfold checkMaster
  simp [ResultSet.whileAfterLastFirst]

theorem completeBlockEq (time : ∃ t, getBlockTime json.blockTimestamp = .ok t) : completeBlock now w json =
    if json.blockNum ≤ w.confirmedBlock then (w.taken json,.ok (narrow json.blockNum))
    else if json.blockNum - w.confirmedBlock < w.ackEveryAt json then (w.taken json,.ok (-1))
    else if Looks now w json then (w.completed json,.error (.exception "SYNC corrupted"))
    else (w.completed json,.ok (narrow json.blockNum)) := by
  obtain ⟨t,time⟩ := time
  have ack : (if json.lastIrreversible < json.blockNum then { w with ackEvery := 1 } else w) =
      { w with ackEvery := w.ackEveryAt json } := by
    unfold ackEveryAt
    split <;> rfl
  simp only [completeBlock, time, ack, moveIrreversibleEq, sendBatchEq, checkMasterThrows]
  rfl

theorem updSyncForkOwn {s : Store} {sourceId : Int} :
    ((s.updSyncFork n sourceId).sync.find? fun r => r.sourceid == sourceId) =
      (s.sync.find? fun r => r.sourceid == sourceId).map fun r => { r with blockNum := n } := by
  have found : ∀ rows : List Sync,
      ((rows.map fun r => if r.sourceid = sourceId then { r with blockNum := n } else r).find? fun r =>
        r.sourceid == sourceId) = (rows.find? fun r => r.sourceid == sourceId).map fun r => { r with blockNum := n } := by
    intro rows
    induction rows with
    | nil => rfl
    | cons r rest ih =>
      by_cases own : r.sourceid = sourceId
      · simp [own]
      · simpa [-List.find?_map, own] using ih
  exact found s.sync

theorem takenSync : (w.taken json).connection.working.sync = w.connection.working.sync := by
  simp only [taken, Connection.execute, sending, cleaning]
  repeat' split
  all_goals rfl

end Equations

inductive Processed (now : Clock) (w : Writer) : Message → Writer → Int → Prop where
  | ignored {n} (reversible : w.confirmedBlock ≤ w.irreversible) : Processed now w (.fork n) w.ignored (narrow (n - 1))
  | forked {n} (reversible : w.irreversible < w.confirmedBlock) : Processed now w (.fork n) (w.forked n) (narrow (n - 1))
  | skipped {json} (known : json.blockNum ≤ w.confirmedBlock ∨ json.row = none) : Processed now w (.txTrace json) w (-1)
  | traced {json r} (new : w.confirmedBlock < json.blockNum) (row : json.row = some r) :
      Processed now w (.txTrace json) (w.traced r) (-1)
  | batched {json v} (waits : ¬ w.Commits (.blockCompleted json)) : Processed now w (.blockCompleted json) (w.taken json) v
  | completed {json} (commits : w.Commits (.blockCompleted json)) (calm : ¬ Looks now w json) :
      Processed now w (.blockCompleted json) (w.completed json) (narrow json.blockNum)
  | unknown : Processed now w .unknown w (-1)

section Inversion
variable {w w' : Writer} {now : Clock} {m : Message} {v : Int}

theorem forkProcessed {n} (ok : w.fork n = (w',.ok v)) : Processed now w (.fork n) w' v := by
  rw [forkEq] at ok
  split at ok
  · rename_i reversible
    cases ok
    exact .ignored reversible
  · rename_i past
    cases ok
    exact .forked (Int.not_le.mp past)

theorem txTraceProcessed {json} (ok : w.txTrace json = (w',.ok v)) : Processed now w (.txTrace json) w' v := by
  unfold txTrace at ok
  split at ok
  · rename_i known
    cases ok
    exact .skipped (Or.inl known)
  rename_i new
  split at ok
  · rename_i status
    cases ok
    exact .skipped (Or.inr (by simp_all [Json.row]))
  rename_i status
  split at ok
  · rename_i actions
    cases ok
    exact .skipped (Or.inr (by simp [Json.row, actions]))
  rename_i atrace rest actions
  split at ok
  · cases ok
  rename_i blockTime time
  have row : json.row = some ⟨atrace.globalSequence,json.blockNum,blockTime,json.id,json⟩ := by
    simp_all [Json.row]
  have kept : w' = w.traced ⟨atrace.globalSequence,json.blockNum,blockTime,json.id,json⟩ ∧ v = -1 := by
    unfold Writer.traced saved
    split at ok <;> cases ok <;> simp_all
  obtain ⟨rfl,rfl⟩ := kept
  exact .traced (Int.not_le.mp new) row

theorem completeBlockProcessed {json} (ok : completeBlock now w json = (w',.ok v)) :
    Processed now w (.blockCompleted json) w' v := by
  cases time : getBlockTime json.blockTimestamp with
  | error e => simp [completeBlock, time] at ok
  | ok t =>
    rw [completeBlockEq ⟨t,time⟩] at ok
    split at ok
    · rename_i known
      cases ok
      exact .batched fun commits => absurd commits.1 (Int.not_lt.mpr known)
    rename_i new
    split at ok
    · rename_i waits
      cases ok
      exact .batched fun commits => absurd commits.2 (Int.not_le.mpr waits)
    rename_i due
    split at ok
    · cases ok
    · rename_i calm
      cases ok
      exact .completed ⟨Int.not_le.mp new,Int.not_lt.mp due⟩ calm

theorem processed (ok : processData now w m = (w',.ok v)) : Processed now w m w' v := by
  cases m with
  | fork n => exact forkProcessed ok
  | txTrace json => exact txTraceProcessed ok
  | blockCompleted json => exact completeBlockProcessed ok
  | malformed error offset => cases ok
  | unknown =>
    cases ok
    exact .unknown

theorem thrown {e : Thrown} (error : processData now w m = (w',.error e)) :
    w' = w ∨ ∃ json, m = .blockCompleted json ∧ w.Commits m ∧ Looks now w json ∧ w' = w.completed json := by
  cases m with
  | fork n =>
    change w.fork n = _ at error
    rw [forkEq] at error
    split at error <;> cases error
  | txTrace json =>
    change w.txTrace json = _ at error
    unfold txTrace at error
    repeat' split at error
    all_goals cases error
    exact Or.inl rfl
  | blockCompleted json =>
    change completeBlock now w json = _ at error
    cases time : getBlockTime json.blockTimestamp with
    | error e =>
      simp only [completeBlock, time] at error
      cases error
      exact Or.inl rfl
    | ok t =>
      rw [completeBlockEq ⟨t,time⟩] at error
      split at error
      · cases error
      rename_i new
      split at error
      · cases error
      rename_i due
      split at error
      · rename_i looks
        cases error
        exact Or.inr ⟨json,rfl,⟨Int.not_le.mp new,Int.not_lt.mp due⟩,looks,rfl⟩
      · cases error
  | malformed error offset =>
    cases error
    exact Or.inl rfl
  | unknown => cases error

theorem outcome : (∃ v, Processed now w m (processData now w m).1 v) ∨ (processData now w m).1 = w ∨
    ∃ json, m = .blockCompleted json ∧ w.Commits m ∧ Looks now w json ∧ (processData now w m).1 = w.completed json := by
  cases call : processData now w m with
  | mk next result =>
    cases result with
    | error e => exact Or.inr (thrown call)
    | ok v => exact Or.inl ⟨v,processed call⟩

theorem tracedConnection {r : TraceRow} : (w.traced r).connection = w.connection ∧ (w.traced r).sourceId = w.sourceId := by
  unfold Writer.traced saved saveTrace
  repeat' split
  all_goals exact ⟨rfl,rfl⟩

theorem processedFixed (call : Processed now w m w' v) : w'.iAmMaster = w.iAmMaster ∧ w'.keepBlocks = w.keepBlocks := by
  cases call with
  | traced =>
    unfold Writer.traced saved saveTrace
    repeat' split
    all_goals exact ⟨rfl,rfl⟩
  | _ => exact ⟨rfl,rfl⟩

theorem stepped {call : Clock × Message} (ok : w.step call = some w') : ∃ v, Processed call.1 w call.2 w' v := by
  unfold step at ok
  split at ok
  · rename_i next v returned
    cases ok
    exact ⟨v,processed returned⟩
  · cases ok

end Inversion

theorem lastSyncFound {w : Writer} {own : Sync} (ok : w.lastSync = .ok own) :
    (w.connection.working.sync.find? fun r => r.sourceid == w.sourceId) = some own := by
  rw [← List.head?_filter]
  unfold lastSync at ok
  generalize (w.connection.working.sync.filter fun r => r.sourceid == w.sourceId) = rows at ok ⊢
  cases rows with
  | nil => cases ok
  | cons r rest =>
    simp only [ResultSet.isAfterLast, ResultSet.next, ResultSet.executeQuery, ResultSet.row] at ok
    simp_all

theorem sanityChecked {w w' : Writer} (ok : w.sanityCheck = .ok w') :
    ∃ own, (w.connection.working.sync.find? fun r => r.sourceid == w.sourceId) = some own ∧
      w' = { w with
        confirmedBlock := own.blockNum
        unconfirmedBlock := own.blockNum
        irreversible := own.irreversible
        iAmMaster := decide (own.isMaster ≠ 0) } := by
  simp only [sanityCheck] at ok
  split at ok
  · cases ok
  split at ok
  · cases ok
  split at ok
  · simp only [bindReturns] at ok
    obtain ⟨_,_,_,_,_,_,_,_,ok⟩ := ok
    split at ok
    · cases ok
    · simp only [bindReturns] at ok
      obtain ⟨own,found,isMaster,read,ok⟩ := ok
      split at ok
      · cases ok
      · cases ok
        exact ⟨own,lastSyncFound found,by rw [getIntSome read]⟩
  · cases ok

theorem initialized {o : Options} {s : Store} {w : Writer} (ok : initializeWriter o s = .ok w) :
    ∃ own, (s.sync.find? fun r => r.sourceid == o.sourceId) = some own ∧
      w = { fresh o s with
        confirmedBlock := own.blockNum
        unconfirmedBlock := own.blockNum
        irreversible := own.irreversible
        iAmMaster := decide (own.isMaster ≠ 0) } := by
  obtain ⟨checked,sane,ok⟩ := bindReturns.mp ok
  obtain ⟨own,found,rfl⟩ := sanityChecked sane
  cases ok
  exact ⟨own,found,rfl⟩

def started : Writer := { fresh defaultOptions Store.shipped with
  confirmedBlock := 0
  unconfirmedBlock := 0
  irreversible := 0
  iAmMaster := true }

def firstBlock : BlockCompleted := ⟨1,"2020-03-24T00:00:00","00000001",0⟩

theorem startedShipped : initializeWriter defaultOptions Store.shipped = .ok started := by decide +kernel

end Writer
end FioRelic.Prototype

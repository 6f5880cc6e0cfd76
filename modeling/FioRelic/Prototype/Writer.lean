import FioRelic.Prototype.Store

/-! The writer: its options, the check it starts with, the messages of Chronicle and what
each of them does. A call that throws ends the process, and the connection rolls back. -/
namespace FioRelic.Prototype
open Relational

/- The clock of the process, in nanoseconds, and the NOW() of the server, in seconds. -/
structure Clock where
  system : Int
  database : Int
  deriving DecidableEq, Repr

def second : Int := 1000000000

structure BlockCompleted where
  blockNum : Int
  blockTimestamp : String
  blockId : String
  lastIrreversible : Int
  deriving DecidableEq, Repr

inductive Message where
  | fork (blockNum : Int)
  | txTrace (json : Json)
  | blockCompleted (json : BlockCompleted)
  | malformed (error offset : Int)
  | unknown
  deriving DecidableEq, Repr

structure Options where
  sourceId : Int
  ackEvery : Int
  keepDays : Int
  noTraces : Bool
  deriving DecidableEq, Repr

def defaultOptions : Options := ⟨1,100,-1,false⟩

structure Writer where
  connection : Connection Store
  sourceId : Int
  noTraces : Bool
  ackEvery : Int
  iAmMaster : Bool
  justCommitted : Bool
  keepBlocks : Int
  retiredTime : Int
  confirmedBlock : Int
  irreversible : Int
  unconfirmedBlock : Int
  insertBkpTraces : List TraceRow
  insertTransactions : List TraceRow
  insertReceipts : List Receipt
  upsertRecvSeqMax : List (String × Int)
  deriving DecidableEq, Repr

/- int keepDays; keepBlocks = keepDays * 24 * 7200, in int arithmetic. -/
def keepBlocksOf (keepDays : Int) : Int := if 0 ≤ keepDays then narrow (narrow (keepDays * 24) * 7200) else -1

/- The first T becomes a blank; without one std::string::replace throws. -/
def getBlockTime (blockTimestamp : String) : Except Thrown String :=
  match blockTimestamp.toList.span (· ≠ 'T') with
  | (_,[]) => .error .outOfRange
  | (before,_ :: after) => .ok (String.ofList (before ++ ' ' :: after))

namespace Writer

def execute (w : Writer) (statement : Store → Store) : Writer := { w with connection := w.connection.execute statement }

def commit (w : Writer) : Writer := { w with connection := w.connection.commit }

def fresh (o : Options) (s : Store) : Writer where
  connection := ⟨s,s⟩
  sourceId := o.sourceId
  noTraces := o.noTraces
  ackEvery := o.ackEvery
  iAmMaster := false
  justCommitted := false
  keepBlocks := keepBlocksOf o.keepDays
  retiredTime := 0
  confirmedBlock := -1
  irreversible := -1
  unconfirmedBlock := -1
  insertBkpTraces := []
  insertTransactions := []
  insertReceipts := []
  upsertRecvSeqMax := []

def lastSync (w : Writer) : Except Thrown Sync :=
  let r := (ResultSet.executeQuery (w.connection.working.sync.filter fun r => r.sourceid == w.sourceId)).next
  if r.isAfterLast then
    .error (.exception ("sourceid=" ++ toString w.sourceId ++ " is not defined in SYNC table"))
  else match r.row with
    | some own => .ok own
    | none => .error .sql

def sanityCheck (w : Writer) : Except Thrown Writer := do
  let sync := w.connection.working.sync
  let masters := sync.filter fun r => r.isMaster == 1
  if masters.length < 1 then .error (.exception "No master is defined in SYNC table")
  if 1 < masters.length then .error (.exception "More than one master is defined in SYNC table")
  let master ← match masters.head? with
    | some r => .ok r
    | none => .error .sql
  let masterSourceId ← getInt (some master.sourceid)
  let masterBlockNumber ← getInt (some master.blockNum)
  let masterIrreversible ← getInt (some master.irreversible)
  if 1 < (sync.filter fun r => r.isMaster == 0).length then
    .error (.exception "SYNC table contains more than one slave")
  let own ← w.lastSync
  let isMaster ← getInt (some own.isMaster)
  let iAmMaster := decide (isMaster ≠ 0)
  if !iAmMaster && (masterBlockNumber == 0 || masterIrreversible == 0) then
    .error (.exception ("sourceid=" ++ toString masterSourceId ++ " is defined as master, but it has not started yet."))
  .ok { w with
    confirmedBlock := own.blockNum
    unconfirmedBlock := own.blockNum
    irreversible := own.irreversible
    iAmMaster := iAmMaster }

def initializeWriter (o : Options) (s : Store) : Except Thrown Writer := do
  let w ← (fresh o s).sanityCheck
  .ok w.commit

def forkTraces (w : Writer) (startBlock : Int) : Writer :=
  (w.execute (Store.forkReceipts startBlock)).execute (Store.forkTransactions startBlock)

def saveTrace (w : Writer) (trxSeq blockNum : Int) (blockTime : String) (trace : Json) : Writer :=
  if !w.noTraces then
    { w with
      insertTransactions := w.insertTransactions ++ [⟨trxSeq,blockNum,blockTime,trace.id,trace⟩]
      insertReceipts := w.insertReceipts ++ trace.actionTraces.map fun atrace =>
        ⟨trxSeq,blockNum,blockTime,atrace.account,atrace.name,atrace.receiver,atrace.recvSequence⟩
      upsertRecvSeqMax := trace.actionTraces.foldl
        (fun m atrace => upsert Prod.fst m (atrace.receiver,atrace.recvSequence)) w.upsertRecvSeqMax }
  else w

def sendTracesBatch (w : Writer) : Writer :=
  if w.insertTransactions.isEmpty then w
  else
    let w' := w.execute (Store.insertTransactions w.insertTransactions)
    let w' := w'.execute (Store.insertReceipts w.insertReceipts)
    let w' := w'.execute (Store.insertRecvSeqMax w.upsertRecvSeqMax)
    { w' with
      insertTransactions := []
      insertReceipts := []
      upsertRecvSeqMax := [] }

def fork (w : Writer) (blockNum : Int) : Writer × Except Thrown Int :=
  let w := { w.commit with justCommitted := true }
  if w.confirmedBlock ≤ w.irreversible then (w,.ok (narrow (blockNum - 1)))
  else
    let w := { w with
      confirmedBlock := blockNum - 1
      unconfirmedBlock := blockNum - 1
      insertTransactions := []
      insertReceipts := []
      upsertRecvSeqMax := [] }
    let w := if w.iAmMaster then w.forkTraces blockNum else w.execute (Store.forkBkp blockNum)
    let w := w.execute (Store.updSyncFork w.confirmedBlock w.sourceId)
    let w := { w.commit with justCommitted := true }
    (w,.ok (narrow w.confirmedBlock))

-- The status is compared with strcasecmp.
def executed (status : String) : Bool := status.map Char.toLower == "executed"

def txTrace (w : Writer) (json : Json) : Writer × Except Thrown Int :=
  if json.blockNum ≤ w.confirmedBlock then (w,.ok (-1))
  else if !executed json.status then (w,.ok (-1))
  else match json.actionTraces with
    | [] => (w,.ok (-1))
    | atrace :: _ => match getBlockTime json.blockTimestamp with
      | .error e => (w,.error e)
      | .ok blockTime =>
        if w.iAmMaster then (w.saveTrace atrace.globalSequence json.blockNum blockTime json,.ok (-1))
        else
          ({ w with insertBkpTraces := w.insertBkpTraces ++
            [⟨atrace.globalSequence,json.blockNum,blockTime,json.id,json⟩] },.ok (-1))

/- LIB has moved: the slave cleans its backup and prunes. setInt narrows `upto`. -/
def moveIrreversible (w : Writer) (lastIrreversible : Int) : Writer :=
  if w.irreversible < lastIrreversible then
    let w := { w with irreversible := lastIrreversible }
    if !w.iAmMaster then
      let w := w.execute Store.cleanBkp
      if 0 ≤ w.keepBlocks then
        let upto := w.irreversible - w.keepBlocks
        (w.execute (Store.pruneReceipts (narrow upto))).execute (Store.pruneTransactions (narrow upto))
      else w
    else w
  else w

def sendBatch (w : Writer) : Writer :=
  if w.iAmMaster then w.sendTracesBatch
  else if !w.insertBkpTraces.isEmpty then
    { w.execute (Store.insrtBkpTraces w.insertBkpTraces) with insertBkpTraces := [] }
  else w

structure Health where
  myUpd : Int
  myIrrev : Int
  masterUpd : Int
  masterIrrev : Int
  oldMaster : Int
  deriving DecidableEq, Repr

/- TIME_TO_SEC(TIMEDIFF(NOW(), last_updated)); a TIME ends at 838:59:59. -/
def upd (now : Clock) (r : Sync) : Int := max (-3020399) (min 3020399 (now.database - r.lastUpdated))

def readHealth (now : Clock) (sourceId : Int) (row : Option Sync) (h : Health) : Except Thrown Health := match row with
  | none => .error .sql
  | some r =>
    if r.sourceid = sourceId then .ok { h with myUpd := upd now r, myIrrev := r.irreversible }
    else if r.isMaster ≠ 0 then
      .ok { h with masterUpd := upd now r, masterIrrev := r.irreversible, oldMaster := r.sourceid }
    else .ok h

def copyTrace (row : Option TraceRow) (w : Writer) : Except Thrown Writer := match row with
  | none => .error .sql
  | some r => .ok (w.saveTrace r.seq r.blockNum r.blockTime r.trace)

def takeOver (w : Writer) (masterIrrev : Int) : Writer × Except Thrown Unit :=
  let w := ((w.execute (Store.updSync1 w.sourceId)).execute (Store.updSync2 w.sourceId)).commit
  let w := { w with iAmMaster := true }
  let startBlock := masterIrrev + 1
  let w := w.forkTraces startBlock
  let rows := (w.connection.working.bkpTraces.filter fun r => decide (startBlock ≤ r.blockNum)).mergeSort
    fun r r' => decide (r.seq ≤ r'.seq)
  match ResultSet.whileAfterLast copyTrace (rows.length + 1) (ResultSet.executeQuery rows).first w with
  | .error e => (w,.error e)
  | .ok w =>
    let w := { w.sendTracesBatch.commit with justCommitted := true }
    let w := { (w.execute (Store.forkBkp startBlock)).commit with justCommitted := true }
    (w,.ok ())

def checkMaster (now : Clock) (w : Writer) : Writer × Except Thrown Unit :=
  let rows := w.connection.working.sync
  match ResultSet.whileAfterLast (readHealth now w.sourceId) (rows.length + 1) (ResultSet.executeQuery rows).first
    ⟨-1,-1,-1,-1,-1⟩ with
  | .error e => (w,.error e)
  | .ok h =>
    if h.myUpd < 0 ∨ h.myIrrev < 0 ∨ h.masterUpd < 0 ∨ h.masterIrrev < 0 ∨ h.oldMaster < 0 then
      (w,.error (.exception "SYNC corrupted"))
    else if h.masterIrrev < h.myIrrev - 120 ∧ h.masterUpd > h.myUpd + 120 ∧ h.myUpd < 10 then w.takeOver h.masterIrrev
    else (w,.ok ())

-- The parameters of sth_upd_sync_head are set before the commit, but it is never executed.
def completeBlock (now : Clock) (w : Writer) (json : BlockCompleted) : Writer × Except Thrown Int :=
  match getBlockTime json.blockTimestamp with
  | .error e => (w,.error e)
  | .ok _ =>
    let w := if json.lastIrreversible < json.blockNum then { w with ackEvery := 1 } else w
    let w := w.moveIrreversible json.lastIrreversible
    let w := w.sendBatch
    let w := { w with unconfirmedBlock := json.blockNum }
    if w.unconfirmedBlock ≤ w.confirmedBlock then (w,.ok (narrow w.unconfirmedBlock))
    else if w.unconfirmedBlock - w.confirmedBlock < w.ackEvery then (w,.ok (-1))
    else
      let w := { w.commit with justCommitted := true, confirmedBlock := w.unconfirmedBlock }
      if !w.iAmMaster ∧ json.lastIrreversible < json.blockNum ∧ w.retiredTime + 60 * second < now.system then
        match checkMaster now w with
        | (w,.error e) => (w,.error e)
        | (w,.ok _) => (w,.ok (narrow w.confirmedBlock))
      else (w,.ok (narrow w.confirmedBlock))

-- isValid holds here: a session that was lost before the message is an incident of its own, with its reconnection.
def processData (now : Clock) (w : Writer) : Message → Writer × Except Thrown Int
  | .fork blockNum => w.fork blockNum
  | .txTrace json => w.txTrace json
  | .blockCompleted json => completeBlock now w json
  | .malformed error offset =>
    (w,.error (.exception ("JSON error: " ++ toString error ++ ", offset: " ++ toString offset)))
  | .unknown => (w,.ok (-1))

/- SELECT is_master FROM SYNC WHERE sourceid = ?, after the master's own commit. -/
def checkRole (now : Clock) (w : Writer) : Writer :=
  if w.iAmMaster && w.justCommitted then
    let stillMaster := match w.connection.working.sync.find? fun r => r.sourceid == w.sourceId with
      | some r => decide (r.isMaster ≠ 0)
      | none => false
    let w := if stillMaster then w else { w with iAmMaster := false, retiredTime := now.system }
    { w with justCommitted := false }
  else w

def onRead (now : Clock) (w : Writer) (m : Message) : Writer × Except Thrown Int := processData now (w.checkRole now) m

def step (w : Writer) (call : Clock × Message) : Option Writer := match processData call.1 w call.2 with
  | (w',.ok _) => some w'
  | (_,.error _) => none

end Writer
end FioRelic.Prototype

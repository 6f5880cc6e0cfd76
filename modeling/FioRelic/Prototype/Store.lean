import FioRelic.Relational.Client
import FioRelic.Relational.Null

/-! The MySQL tables of the prototype and the statements that the writer and the cleaner
prepare. A JSON text is kept with what the program reads of it. -/
namespace FioRelic.Prototype
open Relational

/- Conversion of a 64-bit integer, or of the result of int arithmetic, to int. -/
def narrow (n : Int) : Int := (n + 2147483648) % 4294967296 - 2147483648

inductive Thrown where
  | exception (message : String)
  | outOfRange
  | sql
  deriving DecidableEq, Repr

structure ActionTrace where
  account : String
  name : String
  receiver : String
  recvSequence : Int
  globalSequence : Int
  deriving DecidableEq, Repr

structure Json where
  text : String
  blockNum : Int
  blockTimestamp : String
  id : String
  status : String
  actionTraces : List ActionTrace
  deriving DecidableEq, Repr

structure Sync where
  sourceid : Int
  blockNum : Int
  irreversible : Int
  isMaster : Int
  lastUpdated : Int
  deriving DecidableEq, Repr

/- A row of TRANSACTIONS and of BKP_TRACES. -/
structure TraceRow where
  seq : Int
  blockNum : Int
  blockTime : String
  trxId : String
  trace : Json
  deriving DecidableEq, Repr

structure Receipt where
  seq : Int
  blockNum : Int
  blockTime : String
  contract : String
  action : String
  receiver : String
  recvSequence : Int
  deriving DecidableEq, Repr

namespace Receipt

/- PRIMARY KEY (receiver, contract, action, recv_sequence, seq). -/
def key (r : Receipt) : String × String × String × Int × Int :=
  (r.receiver,r.contract,r.action,r.recvSequence,r.seq)

end Receipt

structure Store where
  sync : List Sync
  transactions : List TraceRow
  receipts : List Receipt
  recvSequenceMax : List (String × Int)
  bkpTraces : List TraceRow
  deriving DecidableEq, Repr

namespace Store

/- The script creates the tables with one writer in SYNC, a master since 2000-01-01. -/
def shipped : Store := ⟨[⟨1,0,0,1,946684800⟩],[],[],[],[]⟩

def minIrreversible (s : Store) : Option Int := (s.sync.map Sync.irreversible).min?

def minTxBlock (s : Store) : Option Int := (s.transactions.map TraceRow.blockNum).min?

def updSyncFork (blockNum sourceId : Int) (s : Store) : Store :=
  { s with sync := s.sync.map fun r => if r.sourceid = sourceId then { r with blockNum := blockNum } else r }

def updSync1 (sourceId : Int) (s : Store) : Store :=
  { s with sync := s.sync.map fun r => if r.sourceid ≠ sourceId then { r with isMaster := 0 } else r }

def updSync2 (sourceId : Int) (s : Store) : Store :=
  { s with sync := s.sync.map fun r => if r.sourceid = sourceId then { r with isMaster := 1 } else r }

def forkBkp (startBlock : Int) (s : Store) : Store :=
  { s with bkpTraces := s.bkpTraces.filter fun r => !decide (startBlock ≤ r.blockNum) }

def forkReceipts (startBlock : Int) (s : Store) : Store :=
  { s with receipts := s.receipts.filter fun r => !decide (startBlock ≤ r.blockNum) }

def forkTransactions (startBlock : Int) (s : Store) : Store :=
  { s with transactions := s.transactions.filter fun r => !decide (startBlock ≤ r.blockNum) }

def cleanBkp (s : Store) : Store :=
  { s with bkpTraces := s.bkpTraces.filter fun r => !below (some r.blockNum) s.minIrreversible }

def pruneReceipts (upto : Int) (s : Store) : Store :=
  { s with receipts := s.receipts.filter fun r => !decide (r.blockNum < upto) }

def pruneTransactions (upto : Int) (s : Store) : Store :=
  { s with transactions := s.transactions.filter fun r => !decide (r.blockNum < upto) }

def insrtBkpTraces (rows : List TraceRow) (s : Store) : Store :=
  { s with bkpTraces := insertBatch TraceRow.seq s.bkpTraces rows }

def insertTransactions (rows : List TraceRow) (s : Store) : Store :=
  { s with transactions := insertBatch TraceRow.seq s.transactions rows }

def insertReceipts (rows : List Receipt) (s : Store) : Store :=
  { s with receipts := insertBatch Receipt.key s.receipts rows }

def insertRecvSeqMax (entries : List (String × Int)) (s : Store) : Store :=
  { s with recvSequenceMax := upsertBatch Prod.fst s.recvSequenceMax entries }

end Store

/- getInt of a BIGINT column: NULL is read as 0, and a value that is no int throws. -/
def getInt (n : Option Int) : Except Thrown Int := match n with
  | none => .ok 0
  | some k => if fitsInt k then .ok k else .error .sql

end FioRelic.Prototype

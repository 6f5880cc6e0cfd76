import FioRelic.Triggers

/-! Stored procedures over FIO requests and FIO data. A request copies the handles'
encryption keys, a data row the owners' public keys. -/
namespace FioRelic
open Relational

section
variable (server : Server)

-- payerpubkey and payeepubkey are varchar(64) like encryption_key, the columns varchar(53).
def insFioRequests (fktransactionid fkblocknumber fkchainrequestid : Option Int)
    (payerhandle payeehandle : Option String) (binarycontent : Option Bytes) (requeststatus : Option String)
    (blocktimestamp : Option Timestamp) : Proc (Option Int) := do
  if below fkblocknumber (some 0) then return some (-1)
  let payer ← select server .handles fun r => same r.handle payerhandle
  let payee ← select server .handles fun r => same r.handle payeehandle
  let status ← oneOf requestStatuses requeststatus
  let pkid ← insertInto .fioRequests fun pk =>
    { pkFioRequestsId := pk
      fkBlockNumber := fkblocknumber
      fioChainRequestId := fkchainrequestid
      fkPayerHandleId := payer.map Handle.pkHandleId
      fkPayeeHandleId := payee.map Handle.pkHandleId
      binaryContent := binarycontent
      payerPubKey := cut 53 (payer.bind Handle.encryptionKey)
      payeePubKey := cut 53 (payee.bind Handle.encryptionKey)
      requestStatus := status
      fkTransactionId := fktransactionid
      blockTimestamp := blocktimestamp }
  toInt (some pkid)

def updFioRequestsStatus (fkchainrequestid : Option Int) (requeststatus : Option String) : Proc (Option Int) := do
  let found ← select server .fioRequests fun r => same r.fioChainRequestId fkchainrequestid
  match found with
  | none => return some 1
  | some row =>
    let status ← oneOf requestStatuses requeststatus
    update .fioRequests (fun r => decide (r.pkFioRequestsId = row.pkFioRequestsId)) fun r =>
      { r with requestStatus := status }
    toInt (some row.pkFioRequestsId)

def insFioDatas (fktransactionid fkblocknumber fkchainrequestid : Option Int)
    (payerhandle payeehandle : Option String) (binarycontent : Option Bytes) (requeststatus : Option String)
    (blocktimestamp : Option Timestamp) : Proc (Option Int) := do
  if below fkblocknumber (some 0) then return some (-1)
  let payer ← select server .handles fun r => same r.handle payerhandle
  let payee ← select server .handles fun r => same r.handle payeehandle
  let payerAccount ← select server .accounts fun r =>
    same (some r.pkAccountId) (payer.bind Handle.fkOwnerAccountId)
  let payeeAccount ← select server .accounts fun r =>
    same (some r.pkAccountId) (payee.bind Handle.fkOwnerAccountId)
  let status ← oneOf dataStatuses requeststatus
  let pkid ← insertInto .fioDatas fun pk =>
    { pkFioDataId := pk
      fkBlockNumber := fkblocknumber
      fioChainRequestId := fkchainrequestid
      fkPayerHandleId := payer.map Handle.pkHandleId
      fkPayeeHandleId := payee.map Handle.pkHandleId
      binaryContent := binarycontent
      payerPubKey := cut 53 (payerAccount.bind Account.publicKey)
      payeePubKey := cut 53 (payeeAccount.bind Account.publicKey)
      dataStatus := status
      fkTransactionId := fktransactionid
      blockTimestamp := blocktimestamp }
  toInt (some pkid)

def insHandleActivitiesFioRequest (fktransactionid fkblocknumber fiochainrequestid : Option Int)
    (handleactivitytype : Option String) (blocktimestamp : Option Timestamp) : Proc (Option Int) := do
  if below fkblocknumber (some 0) then return some (-1)
  let found ← select server .fioRequests fun r => same r.fioChainRequestId fiochainrequestid
  let activityType ← oneOf handleActivityTypes handleactivitytype
  let pkid ← insertInto .handleActivities fun pk =>
    { pkHandleActivityId := pk
      fkHandleId := found.bind FioRequest.fkPayeeHandleId
      fkBlockNumber := fkblocknumber
      fkTransactionId := fktransactionid
      handleActivityType := activityType
      blockTimestamp := blocktimestamp }
  toInt (some pkid)

end
end FioRelic

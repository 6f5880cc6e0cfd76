import FioRelic.Triggers

/-! Stored procedures over blocks, accounts, transactions, traces, account activities,
token transfers and token stakings. Statements stand in the order of the scripts. -/
namespace FioRelic
open Relational

def fioToken : Option String := some "fio.token"
def supply : Int := 1000000000000000000

def startsWith (text : Option String) (start : String) : Bool :=
  text.any fun t => start.toList.isPrefixOf t.toList

def minus (x y : Option Int) : Option Int := do return (← x) - (← y)
def plus (x y : Option Int) : Option Int := do return (← x) + (← y)

def outOfBounds (balance : Option Int) : Bool := balance.any fun n => decide (n > supply ∨ n < 0)

section
variable (server : Server)

def castTimestamp (text : Option String) : Proc (Option Timestamp) := match text with
  | none => return none
  | some t => match server.timestamp t with
    | some stamp => return some stamp
    | none => throw .invalidText

def insBlocks (bnumber : Option Int) (btimestamp blockid produceraccountname scheduleversion : Option String) :
    Proc (Option Int) := do
  if below bnumber (some 0) then return some 0
  let stamp ← castTimestamp server btimestamp
  match bnumber with
  | none => throw .notNullViolation
  | some number =>
    let _ ← insertInto .blocks fun _ =>
      ⟨number,stamp,cut 80 blockid,cut 12 produceraccountname,cut 64 scheduleversion⟩
    return some 1

def insUpdAccounts (fkblocknumber : Option Int) (accountname publickey : Option String)
    (blocktimestamp : Option Timestamp) (doupdates : Option Bool) : Proc (Option Int) := do
  let found ← select server .accounts fun r => same r.accountName accountname
  match found with
  | none =>
    if same accountname fioToken then
      let pkid ← insertInto .accounts fun pk =>
        ⟨pk,fkblocknumber,cut 12 accountname,cut 53 publickey,some supply,blocktimestamp⟩
      toInt (some pkid)
    else
      let pkid ← insertInto .accounts fun pk =>
        ⟨pk,fkblocknumber,cut 12 accountname,cut 53 publickey,some 0,blocktimestamp⟩
      toInt (some pkid)
  | some account =>
    let pkid := account.pkAccountId
    if doupdates = some true then
      update .accounts (fun r => decide (r.pkAccountId = pkid)) fun r =>
        { r with
          fkBlockNumber := fkblocknumber
          publicKey := cut 53 publickey
          blockTimestamp := blocktimestamp }
    toInt (some pkid)

-- The branch for fio.token names fkblocknumber, which instransactions does not declare.
def insTransactions (blocknumber : Option Int) (blocktimestamp : Option Timestamp)
    (transactionid actionaccount accountname actionname tpidhandle : Option String)
    (feeamount : Option Int) (requestdata responsedata statusvalue : Option String) :
    Proc (Option Int) := do
  if below blocknumber (some 0) then return some (-1)
  let action ← select server .accounts fun r => same r.accountName actionaccount
  let actionaccountid ← match action with
    | some account => pure account.pkAccountId
    | none =>
      if same actionaccount fioToken then throw (.undefinedColumn "fkblocknumber")
      else insertInto .accounts fun pk =>
        ⟨pk,blocknumber,cut 12 actionaccount,some "",some 0,blocktimestamp⟩
  let actor ← select server .accounts fun r => same r.accountName accountname
  let accountid ← match actor with
    | some account => pure (some account.pkAccountId)
    | none =>
      if same accountname fioToken then do
        let id ← insertInto .accounts fun pk =>
          ⟨pk,blocknumber,cut 12 accountname,some "",some supply,blocktimestamp⟩
        pure (some id)
      else if startsWith accountname "fio." || startsWith accountname "eosio." then do
        let id ← insertInto .accounts fun pk =>
          ⟨pk,blocknumber,cut 12 accountname,some "",some 0,blocktimestamp⟩
        pure (some id)
      else pure none
  let pkid ← insertInto .transactions fun pk =>
    { pkTransactionId := pk
      fkBlockNumber := blocknumber
      blockTimestamp := blocktimestamp
      transactionId := cut 80 transactionid
      fkActionAccountId := some actionaccountid
      fkAccountId := accountid
      actionName := cut 12 actionname
      tpid := cut 64 tpidhandle
      fee := feeamount
      requestData := requestdata
      responseData := responsedata
      resultStatus := cut 120 statusvalue }
  toInt (some pkid)

def insTraces (fktransactionid fkblocknumber : Option Int) (actionaccount receiveraccountname : Option String)
    (actionordinal : Option Int) (actionname requestdata : Option String)
    (blocktimestamp : Option Timestamp) : Proc (Option Int) := do
  if below fkblocknumber (some 0) then return some (-1)
  let action ← select server .accounts fun r => same r.accountName actionaccount
  let actionaccountid ← match action with
    | some account => pure account.pkAccountId
    | none =>
      if same actionaccount fioToken then insertInto .accounts fun pk =>
        ⟨pk,fkblocknumber,cut 12 actionaccount,some "",some supply,blocktimestamp⟩
      else insertInto .accounts fun pk =>
        ⟨pk,fkblocknumber,cut 12 actionaccount,some "",some 0,blocktimestamp⟩
  let receiver ← select server .accounts fun r => same r.accountName receiveraccountname
  let accountid ← match receiver with
    | some account => pure (some account.pkAccountId)
    | none =>
      if same receiveraccountname fioToken then do
        let id ← insertInto .accounts fun pk =>
          ⟨pk,fkblocknumber,cut 12 receiveraccountname,some "",some supply,blocktimestamp⟩
        pure (some id)
      else if startsWith receiveraccountname "fio." || startsWith receiveraccountname "eosio." then do
        let id ← insertInto .accounts fun pk =>
          ⟨pk,fkblocknumber,cut 12 receiveraccountname,some "",some 0,blocktimestamp⟩
        pure (some id)
      else pure none
  let pkid ← insertInto .traces fun pk =>
    { pkTraceId := pk
      fkTransactionId := fktransactionid
      fkBlockNumber := fkblocknumber
      fkActionAccountId := some actionaccountid
      fkReceiverAccountId := accountid
      actionOrdinal := actionordinal
      actionName := cut 12 actionname
      requestData := requestdata }
  toInt (some pkid)

def insAccountActivities (fktransactionid fkblocknumber : Option Int) (actionaccount activitytype : Option String) :
    Proc (Option Int) := do
  if below fkblocknumber (some 0) then return some (-1)
  let found ← select server .accounts fun r => same r.accountName actionaccount
  let activityType ← oneOf accountActivityTypes activitytype
  let pkid ← insertInto .accountActivities fun pk =>
    { pkAccountActivityId := pk
      fkBlockNumber := fkblocknumber
      fkAccountId := found.map Account.pkAccountId
      fkTransactionId := fktransactionid
      activityType := activityType }
  toInt (some pkid)

def insAccountActivitiesHandle (fktransactionid fkblocknumber : Option Int) (fiohandle activitytype : Option String) :
    Proc (Option Int) := do
  if below fkblocknumber (some 0) then return some (-1)
  let found ← select server .handles fun r => same r.handle fiohandle
  let activityType ← oneOf accountActivityTypes activitytype
  let pkid ← insertInto .accountActivities fun pk =>
    { pkAccountActivityId := pk
      fkBlockNumber := fkblocknumber
      fkAccountId := found.bind Handle.fkOwnerAccountId
      fkTransactionId := fktransactionid
      activityType := activityType }
  toInt (some pkid)

def insTokenTransfers (fktransactionid fkblocknumber : Option Int) (payeraccount payeeaccount : Option String)
    (sufamount : Option Int) (tokentransfertype transfermemo : Option String)
    (blocktimestamp : Option Timestamp) : Proc (Option Int) := do
  if below fkblocknumber (some 0) then return some (-1)
  let payer ← select server .accounts fun r => same r.accountName payeraccount
  let payeraccountid := payer.map Account.pkAccountId
  let payerbalance ← toBigint (minus (payer.bind Account.fioBalanceSuf) sufamount)
  if outOfBounds payerbalance then throw (.raised "out of bounds value computed for payer balance : ")
  update .accounts (fun r => same (some r.pkAccountId) payeraccountid) fun r =>
    { r with fioBalanceSuf := payerbalance }
  let payee ← select server .accounts fun r => same r.accountName payeeaccount
  let credited ← match payee with
    | some account => pure (account.pkAccountId,account.fioBalanceSuf)
    | none => do
      let id ← insertInto .accounts fun pk =>
        ⟨pk,fkblocknumber,cut 12 payeeaccount,some "",some 0,blocktimestamp⟩
      pure (id,some 0)
  let payeeaccountid := credited.1
  let payeebalance ← toBigint (plus credited.2 sufamount)
  if outOfBounds payeebalance then throw (.raised "out of bounds value computed for payee balance")
  update .accounts (fun r => decide (r.pkAccountId = payeeaccountid)) fun r =>
    { r with fioBalanceSuf := payeebalance }
  let transferType ← oneOf tokenTransferTypes tokentransfertype
  let pkid ← insertInto .tokenTransfers fun pk =>
    { pkTokenTransfersId := pk
      fkBlockNumber := fkblocknumber
      fkPayerAccountId := payeraccountid
      fkPayeeAccountId := some payeeaccountid
      fkTransactionId := fktransactionid
      fioSufAmount := sufamount
      tokenTransferType := transferType
      transferMemo := transfermemo
      blockTimestamp := blocktimestamp }
  toInt (some pkid)

def insTokenStakings (fktransactionid fkblocknumber : Option Int) (stakingaccount : Option String)
    (sufamount : Option Int) : Proc (Option Int) := do
  if below fkblocknumber (some 0) then return some (-1)
  let found ← select server .accounts fun r => same r.accountName stakingaccount
  let pkid ← insertInto .tokenStakings fun pk =>
    { pkTokenStakingId := pk
      fkBlockNumber := fkblocknumber
      fkStakerAccountId := found.map Account.pkAccountId
      fkTransactionId := fktransactionid
      fioSufAmount := sufamount }
  toInt (some pkid)

end

def getAccountPubKeyAndId (accountname : Option String) : Proc (List (Int × Option String)) := do
  let s ← get
  return ((s .accounts).rows.filter fun r => same r.accountName accountname).map fun r =>
    (r.pkAccountId,r.publicKey)

end FioRelic

import FioRelic.Triggers

/-! Stored procedures over handles and handle activities. -/
namespace FioRelic
open Relational

section
variable (server : Server)

def insUpdHandles (fkblocknumber : Option Int) (domainname owneraccountname fiohandle encryptkey : Option String)
    (isencryptkeyset : Option Bool) (expirationtimestamp : Option Timestamp) (handlestatus : Option String) :
    Proc (Option Int) := do
  if below fkblocknumber (some 0) then return some (-1)
  let owner ← select server .accounts fun r => same r.accountName owneraccountname
  let domain ← select server .domains fun r => same r.domainName domainname
  let found ← select server .handles fun r => same r.handle fiohandle
  let status ← oneOf handleStatuses handlestatus
  match found with
  | none =>
    let pkid ← insertInto .handles fun pk =>
      { pkHandleId := pk
        fkBlockNumber := fkblocknumber
        fkDomainId := domain.map Domain.pkDomainId
        handle := cut 64 fiohandle
        fkOwnerAccountId := owner.map Account.pkAccountId
        encryptionKey := cut 64 encryptkey
        isEncryptKeySet := isencryptkeyset
        expirationStamp := expirationtimestamp
        handleStatus := status }
    toInt (some pkid)
  | some row =>
    update .handles (fun r => decide (r.pkHandleId = row.pkHandleId)) fun r =>
      { r with
        fkBlockNumber := fkblocknumber
        fkDomainId := domain.map Domain.pkDomainId
        handle := cut 64 fiohandle
        fkOwnerAccountId := owner.map Account.pkAccountId
        encryptionKey := cut 64 encryptkey
        isEncryptKeySet := isencryptkeyset
        expirationStamp := expirationtimestamp
        handleStatus := status }
    toInt (some row.pkHandleId)

-- handles has no column bundled_tx_count, so the SELECT of these two raises.
def updHandlesRenewBundles (_blocknumber : Option Int) (_fiohandle : Option String)
    (_expirationtimestamp : Option Timestamp) : Proc (Option Int) :=
  throw (.undefinedColumn "bundled_tx_count")

def updHandlesAddBundles (_blocknumber : Option Int) (_fiohandle : Option String)
    (_bundlesets : Option Int) : Proc (Option Int) :=
  throw (.undefinedColumn "bundled_tx_count")

-- owneracctid is declared integer, so the owner's bigint id is narrowed on the way.
def updHandlesXferOwner (blocknumber : Option Int) (fiohandle owneraccount encryptkey : Option String)
    (encryptkeyisset : Option Bool) : Proc (Option Int) := do
  let found ← select server .handles fun r => same r.handle fiohandle
  let pkid := found.map Handle.pkHandleId
  let owner ← select server .accounts fun r => same r.accountName owneraccount
  let owneracctid ← toInt (owner.map Account.pkAccountId)
  update .handles (fun r => same (some r.pkHandleId) pkid) fun r =>
    { r with
      fkBlockNumber := blocknumber
      fkOwnerAccountId := owneracctid
      encryptionKey := cut 64 encryptkey
      isEncryptKeySet := encryptkeyisset }
  toInt pkid

def updHandlesEncryptKey (blocknumber : Option Int) (fiohandle encryptkey : Option String) : Proc (Option Int) := do
  let found ← select server .handles fun r => same r.handle fiohandle
  let pkid := found.map Handle.pkHandleId
  let encryptkeyisset := found.bind Handle.isEncryptKeySet
  if holds (truthNot encryptkeyisset) then
    update .handles (fun r => same (some r.pkHandleId) pkid) fun r =>
      { r with
        fkBlockNumber := blocknumber
        encryptionKey := cut 64 encryptkey }
  toInt pkid

def updHandlesSetEncryptKey (blocknumber : Option Int) (fiohandle encryptkey : Option String) :
    Proc (Option Int) := do
  let found ← select server .handles fun r => same r.handle fiohandle
  let pkid := found.map Handle.pkHandleId
  update .handles (fun r => same (some r.pkHandleId) pkid) fun r =>
    { r with
      fkBlockNumber := blocknumber
      encryptionKey := cut 64 encryptkey
      isEncryptKeySet := some true }
  toInt pkid

-- The CHECK on handle_status is met only when a row is updated.
def updHandlesStatus (blocknumber : Option Int) (fiohandle handlestatus : Option String) : Proc (Option Int) := do
  let found ← select server .handles fun r => same r.handle fiohandle
  match found with
  | none => toInt none
  | some row =>
    let status ← oneOf handleStatuses handlestatus
    update .handles (fun r => decide (r.pkHandleId = row.pkHandleId)) fun r =>
      { r with
        fkBlockNumber := blocknumber
        handleStatus := status }
    toInt (some row.pkHandleId)

def updHandleBurnt (blocknumber : Option Int) (fiohandle : Option String) : Proc (Option Int) := do
  let found ← select server .handles fun r => same r.handle fiohandle
  match found with
  | none => return some 0
  | some row =>
    update .handles (fun r => decide (r.pkHandleId = row.pkHandleId)) fun r =>
      { r with
        fkBlockNumber := blocknumber
        fkOwnerAccountId := none
        encryptionKey := some ""
        isEncryptKeySet := some false
        handleStatus := ⟨"burnt",burntListed⟩ }
    return some 1

def insHandleActivities (fktransactionid fkblocknumber : Option Int) (fiohandle handleactivitytype : Option String)
    (blocktimestamp : Option Timestamp) : Proc (Option Int) := do
  if below fkblocknumber (some 0) then return some (-1)
  let found ← select server .handles fun r => same r.handle fiohandle
  let activityType ← oneOf handleActivityTypes handleactivitytype
  let pkid ← insertInto .handleActivities fun pk =>
    { pkHandleActivityId := pk
      fkHandleId := found.map Handle.pkHandleId
      fkBlockNumber := fkblocknumber
      fkTransactionId := fktransactionid
      handleActivityType := activityType
      blockTimestamp := blocktimestamp }
  toInt (some pkid)

end
end FioRelic

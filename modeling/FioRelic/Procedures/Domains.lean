import FioRelic.Triggers

/-! Stored procedures over domains and domain activities. insdomains takes a block
number; the four updates take none and leave fk_block_number as it is. -/
namespace FioRelic
open Relational

section
variable (server : Server)

def insDomains (fkblocknumber : Option Int) (domainname owneraccount : Option String) (ispublic : Option Bool)
    (expirationtimestamp : Option Timestamp) (domainstatus : Option String) : Proc (Option Int) := do
  if below fkblocknumber (some 0) then return some (-1)
  let owner ← select server .accounts fun r => same r.accountName owneraccount
  let status ← oneOf domainStatuses domainstatus
  let pkid ← insertInto .domains fun pk =>
    { pkDomainId := pk
      fkBlockNumber := fkblocknumber
      domainName := cut 62 domainname
      fkOwnerAccountId := owner.map Account.pkAccountId
      isPublic := ispublic
      expirationTimestamp := expirationtimestamp
      domainStatus := status }
  toInt (some pkid)

def insDomainActivities (fktransactionid fkblocknumber : Option Int) (domainname domainactivitytype : Option String)
    (blocktimestamp : Option Timestamp) : Proc (Option Int) := do
  if below fkblocknumber (some 0) then return some (-1)
  let found ← select server .domains fun r => same r.domainName domainname
  let activityType ← oneOf domainActivityTypes domainactivitytype
  let pkid ← insertInto .domainActivities fun pk =>
    { pkDomainActivityId := pk
      fkDomainId := found.map Domain.pkDomainId
      fkBlockNumber := fkblocknumber
      fkTransactionId := fktransactionid
      expirationStamp := found.bind Domain.expirationTimestamp
      domainActivityType := activityType
      blockTimestamp := blocktimestamp }
  toInt (some pkid)

def updDomainExp (domainname : Option String) (expirationtimestamp : Option Timestamp) : Proc (Option Int) := do
  let found ← select server .domains fun r => same r.domainName domainname
  let pkid := found.map Domain.pkDomainId
  update .domains (fun r => same (some r.pkDomainId) pkid) fun r =>
    { r with expirationTimestamp := expirationtimestamp }
  toInt pkid

def updDomainIsPublic (domainname : Option String) (ispublic : Option Bool) : Proc (Option Int) := do
  let found ← select server .domains fun r => same r.domainName domainname
  let pkid := found.map Domain.pkDomainId
  update .domains (fun r => same (some r.pkDomainId) pkid) fun r => { r with isPublic := ispublic }
  toInt pkid

def updDomainOwner (domainname owneraccount : Option String) : Proc (Option Int) := do
  let found ← select server .domains fun r => same r.domainName domainname
  let pkid := found.map Domain.pkDomainId
  let owner ← select server .accounts fun r => same r.accountName owneraccount
  update .domains (fun r => same (some r.pkDomainId) pkid) fun r =>
    { r with fkOwnerAccountId := owner.map Account.pkAccountId }
  toInt pkid

end

-- Every row with the name is set to burnt, not only the latest registration.
def updDomainBurnt (domainname : Option String) : Proc (Option Int) := do
  update .domains (fun r => same r.domainName domainname) fun r =>
    { r with
      domainStatus := ⟨"burnt",by decide⟩
      fkOwnerAccountId := none }
  return some 1

end FioRelic

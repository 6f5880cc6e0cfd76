import FioRelic.Relational.Database

/-! The 22 tables of CreateRelicTables.sql. Every column may be NULL unless it is a
primary key or carries a CHECK. The entity column of an audit table is written by
the triggers alone, from a primary key, so it is not an option here. -/
namespace FioRelic
open Relational

abbrev Timestamp := Int
abbrev Bytes := List UInt8

inductive TableName where
  | blocks | accounts | transactions | traces | accountActivities | domains | domainActivities
  | handles | handleActivities | pubAddresses | nftSignatures | tokenTransfers | tokenStakings
  | fioRequests | fioDatas | handlesAudit | domainsAudit | accountsAudit | fioRequestsAudit
  | fioDatasAudit | pubAddressesAudit | nftSignaturesAudit
  deriving DecidableEq, Repr

structure Block where
  pkBlockNumber : Int
  stamp : Option Timestamp
  blockId : Option String
  producerAccountName : Option String
  scheduleVersion : Option String
  deriving DecidableEq, Repr

structure Account where
  pkAccountId : Int
  fkBlockNumber : Option Int
  accountName : Option String
  publicKey : Option String
  fioBalanceSuf : Option Int
  blockTimestamp : Option Timestamp
  deriving DecidableEq, Repr

structure AccountAudit where
  pkAccountsAuditId : Int
  fkAccountId : Int
  fkBlockNumber : Option Int
  fkTableOperationBlockNumber : Option Int
  accountName : Option String
  publicKey : Option String
  fioBalanceSuf : Option Int
  blockTimestamp : Option Timestamp
  tableOperation : OneOf ["update"]
  tableTimestamp : Option Timestamp
  deriving DecidableEq, Repr

structure Transaction where
  pkTransactionId : Int
  fkBlockNumber : Option Int
  blockTimestamp : Option Timestamp
  transactionId : Option String
  fkActionAccountId : Option Int
  fkAccountId : Option Int
  actionName : Option String
  tpid : Option String
  fee : Option Int
  requestData : Option String
  responseData : Option String
  resultStatus : Option String
  deriving DecidableEq, Repr

structure Trace where
  pkTraceId : Int
  fkTransactionId : Option Int
  fkBlockNumber : Option Int
  fkActionAccountId : Option Int
  fkReceiverAccountId : Option Int
  actionOrdinal : Option Int
  actionName : Option String
  requestData : Option String
  deriving DecidableEq, Repr

def accountActivityTypes : List String := ["sender","receiver"]

structure AccountActivity where
  pkAccountActivityId : Int
  fkBlockNumber : Option Int
  fkAccountId : Option Int
  fkTransactionId : Option Int
  activityType : OneOf accountActivityTypes
  deriving DecidableEq, Repr

def domainStatuses : List String := ["active","burnt"]

structure Domain where
  pkDomainId : Int
  fkBlockNumber : Option Int
  domainName : Option String
  fkOwnerAccountId : Option Int
  isPublic : Option Bool
  expirationTimestamp : Option Timestamp
  domainStatus : OneOf domainStatuses
  deriving DecidableEq, Repr

structure DomainAudit where
  pkDomainsAuditId : Int
  fkDomainId : Int
  fkBlockNumber : Option Int
  fkTableOperationBlockNumber : Option Int
  domainName : Option String
  fkOwnerAccountId : Option Int
  isPublic : Option Bool
  expirationTimestamp : Option Timestamp
  domainStatus : OneOf domainStatuses
  tableOperation : OneOf ["update"]
  tableTimestamp : Option Timestamp
  deriving DecidableEq, Repr

def domainActivityTypes : List String :=
  ["register","renew","transfer","wrap","unwrap","auto_burn","public","non-public"]

structure DomainActivity where
  pkDomainActivityId : Int
  fkDomainId : Option Int
  fkBlockNumber : Option Int
  fkTransactionId : Option Int
  expirationStamp : Option Timestamp
  domainActivityType : OneOf domainActivityTypes
  blockTimestamp : Option Timestamp
  deriving DecidableEq, Repr

def handleStatuses : List String := ["active","burnt"]

theorem burntListed : "burnt" ∈ handleStatuses := by decide

structure Handle where
  pkHandleId : Int
  fkBlockNumber : Option Int
  fkDomainId : Option Int
  handle : Option String
  fkOwnerAccountId : Option Int
  encryptionKey : Option String
  isEncryptKeySet : Option Bool
  expirationStamp : Option Timestamp
  handleStatus : OneOf handleStatuses
  deriving DecidableEq, Repr

structure HandleAudit where
  pkHandlesAuditId : Int
  fkHandleId : Int
  fkBlockNumber : Option Int
  fkTableOperationBlockNumber : Option Int
  fkDomainId : Option Int
  handle : Option String
  fkOwnerAccountId : Option Int
  encryptionKey : Option String
  isEncryptKeySet : Option Bool
  expirationStamp : Option Timestamp
  handleStatus : OneOf handleStatuses
  tableOperation : OneOf ["delete","update"]
  tableTimestamp : Option Timestamp
  deriving DecidableEq, Repr

def handleActivityTypes : List String :=
  ["register","renew","transfer","add_bundles","add_pubadd","rem_pubadd","rem_all_pubadd","add_nft",
    "rem_nft","rem_all_nft","upd_encryptkey","self_burn","new_request","cancel_request",
    "reject_request","record_obt"]

structure HandleActivity where
  pkHandleActivityId : Int
  fkHandleId : Option Int
  fkBlockNumber : Option Int
  fkTransactionId : Option Int
  handleActivityType : OneOf handleActivityTypes
  blockTimestamp : Option Timestamp
  deriving DecidableEq, Repr

structure PubAddress where
  pkPubAddressesId : Int
  fkBlockNumber : Option Int
  fkHandleId : Option Int
  chainCode : Option String
  tokenCode : Option String
  pubAddress : Option String
  deriving DecidableEq, Repr

structure PubAddressAudit where
  pkPubAddressesAuditId : Int
  fkPubAddressesId : Int
  fkBlockNumber : Option Int
  fkTableOperationBlockNumber : Option Int
  fkHandleId : Option Int
  chainCode : Option String
  tokenCode : Option String
  pubAddress : Option String
  tableOperation : OneOf ["delete","update"]
  tableTimestamp : Option Timestamp
  deriving DecidableEq, Repr

structure NftSignature where
  pkNftSignaturesId : Int
  fkBlockNumber : Option Int
  fkHandleId : Option Int
  chainCode : Option String
  contractAddress : Option String
  tokenId : Option String
  nftUrl : Option String
  nftHash : Option String
  nftMetaData : Option String
  deriving DecidableEq, Repr

structure NftSignatureAudit where
  pkNftSignaturesAuditId : Int
  fkNftSignaturesId : Int
  fkBlockNumber : Option Int
  fkTableOperationBlockNumber : Option Int
  fkHandleId : Option Int
  chainCode : Option String
  contractAddress : Option String
  tokenId : Option String
  nftUrl : Option String
  nftHash : Option String
  nftMetaData : Option String
  tableOperation : OneOf ["delete","update"]
  tableTimestamp : Option Timestamp
  deriving DecidableEq, Repr

def tokenTransferTypes : List String :=
  ["transfer","transfer_locked","blockchain_fee","tpid_reward","staking_reward","bp_reward",
    "foundation_reward","oracle_fee","unwrap","token_mint","wrap","retire"]

structure TokenTransfer where
  pkTokenTransfersId : Int
  fkBlockNumber : Option Int
  fkPayerAccountId : Option Int
  fkPayeeAccountId : Option Int
  fkTransactionId : Option Int
  fioSufAmount : Option Int
  tokenTransferType : OneOf tokenTransferTypes
  transferMemo : Option String
  blockTimestamp : Option Timestamp
  deriving DecidableEq, Repr

structure TokenStaking where
  pkTokenStakingId : Int
  fkBlockNumber : Option Int
  fkStakerAccountId : Option Int
  fkTransactionId : Option Int
  fioSufAmount : Option Int
  deriving DecidableEq, Repr

def requestStatuses : List String := ["pending","cancelled","rejected","sent_to_blockchain"]

structure FioRequest where
  pkFioRequestsId : Int
  fkBlockNumber : Option Int
  fioChainRequestId : Option Int
  fkPayerHandleId : Option Int
  fkPayeeHandleId : Option Int
  binaryContent : Option Bytes
  payerPubKey : Option String
  payeePubKey : Option String
  requestStatus : OneOf requestStatuses
  fkTransactionId : Option Int
  blockTimestamp : Option Timestamp
  deriving DecidableEq, Repr

structure FioRequestAudit where
  pkFioRequestsAuditId : Int
  fkFioRequestsId : Int
  fkBlockNumber : Option Int
  fkTableOperationBlockNumber : Option Int
  fioChainRequestId : Option Int
  fkPayerHandleId : Option Int
  fkPayeeHandleId : Option Int
  binaryContent : Option Bytes
  payerPubKey : Option String
  payeePubKey : Option String
  requestStatus : OneOf requestStatuses
  fkTransactionId : Option Int
  blockTimestamp : Option Timestamp
  tableOperation : OneOf ["update"]
  tableTimestamp : Option Timestamp
  deriving DecidableEq, Repr

def dataStatuses : List String := ["pending","cancelled","sent_to_blockchain"]

structure FioData where
  pkFioDataId : Int
  fkBlockNumber : Option Int
  fioChainRequestId : Option Int
  fkPayerHandleId : Option Int
  fkPayeeHandleId : Option Int
  binaryContent : Option Bytes
  payerPubKey : Option String
  payeePubKey : Option String
  dataStatus : OneOf dataStatuses
  fkTransactionId : Option Int
  blockTimestamp : Option Timestamp
  deriving DecidableEq, Repr

structure FioDataAudit where
  pkFioDatasAuditId : Int
  fkFioDatasId : Int
  fkBlockNumber : Option Int
  fkTableOperationBlockNumber : Option Int
  fioChainRequestId : Option Int
  fkPayerHandleId : Option Int
  fkPayeeHandleId : Option Int
  binaryContent : Option Bytes
  payerPubKey : Option String
  payeePubKey : Option String
  dataStatus : OneOf dataStatuses
  fkTransactionId : Option Int
  blockTimestamp : Option Timestamp
  tableOperation : OneOf ["update"]
  tableTimestamp : Option Timestamp
  deriving DecidableEq, Repr

@[reducible] def Row : TableName → Type
  | .blocks => Block
  | .accounts => Account
  | .transactions => Transaction
  | .traces => Trace
  | .accountActivities => AccountActivity
  | .domains => Domain
  | .domainActivities => DomainActivity
  | .handles => Handle
  | .handleActivities => HandleActivity
  | .pubAddresses => PubAddress
  | .nftSignatures => NftSignature
  | .tokenTransfers => TokenTransfer
  | .tokenStakings => TokenStaking
  | .fioRequests => FioRequest
  | .fioDatas => FioData
  | .handlesAudit => HandleAudit
  | .domainsAudit => DomainAudit
  | .accountsAudit => AccountAudit
  | .fioRequestsAudit => FioRequestAudit
  | .fioDatasAudit => FioDataAudit
  | .pubAddressesAudit => PubAddressAudit
  | .nftSignaturesAudit => NftSignatureAudit

def decideRow : (t : TableName) → DecidableEq (Row t)
  | .blocks => inferInstanceAs (DecidableEq Block)
  | .accounts => inferInstanceAs (DecidableEq Account)
  | .transactions => inferInstanceAs (DecidableEq Transaction)
  | .traces => inferInstanceAs (DecidableEq Trace)
  | .accountActivities => inferInstanceAs (DecidableEq AccountActivity)
  | .domains => inferInstanceAs (DecidableEq Domain)
  | .domainActivities => inferInstanceAs (DecidableEq DomainActivity)
  | .handles => inferInstanceAs (DecidableEq Handle)
  | .handleActivities => inferInstanceAs (DecidableEq HandleActivity)
  | .pubAddresses => inferInstanceAs (DecidableEq PubAddress)
  | .nftSignatures => inferInstanceAs (DecidableEq NftSignature)
  | .tokenTransfers => inferInstanceAs (DecidableEq TokenTransfer)
  | .tokenStakings => inferInstanceAs (DecidableEq TokenStaking)
  | .fioRequests => inferInstanceAs (DecidableEq FioRequest)
  | .fioDatas => inferInstanceAs (DecidableEq FioData)
  | .handlesAudit => inferInstanceAs (DecidableEq HandleAudit)
  | .domainsAudit => inferInstanceAs (DecidableEq DomainAudit)
  | .accountsAudit => inferInstanceAs (DecidableEq AccountAudit)
  | .fioRequestsAudit => inferInstanceAs (DecidableEq FioRequestAudit)
  | .fioDatasAudit => inferInstanceAs (DecidableEq FioDataAudit)
  | .pubAddressesAudit => inferInstanceAs (DecidableEq PubAddressAudit)
  | .nftSignaturesAudit => inferInstanceAs (DecidableEq NftSignatureAudit)

def key : (t : TableName) → Row t → Int
  | .blocks => Block.pkBlockNumber
  | .accounts => Account.pkAccountId
  | .transactions => Transaction.pkTransactionId
  | .traces => Trace.pkTraceId
  | .accountActivities => AccountActivity.pkAccountActivityId
  | .domains => Domain.pkDomainId
  | .domainActivities => DomainActivity.pkDomainActivityId
  | .handles => Handle.pkHandleId
  | .handleActivities => HandleActivity.pkHandleActivityId
  | .pubAddresses => PubAddress.pkPubAddressesId
  | .nftSignatures => NftSignature.pkNftSignaturesId
  | .tokenTransfers => TokenTransfer.pkTokenTransfersId
  | .tokenStakings => TokenStaking.pkTokenStakingId
  | .fioRequests => FioRequest.pkFioRequestsId
  | .fioDatas => FioData.pkFioDataId
  | .handlesAudit => HandleAudit.pkHandlesAuditId
  | .domainsAudit => DomainAudit.pkDomainsAuditId
  | .accountsAudit => AccountAudit.pkAccountsAuditId
  | .fioRequestsAudit => FioRequestAudit.pkFioRequestsAuditId
  | .fioDatasAudit => FioDataAudit.pkFioDatasAuditId
  | .pubAddressesAudit => PubAddressAudit.pkPubAddressesAuditId
  | .nftSignaturesAudit => NftSignatureAudit.pkNftSignaturesAuditId

def fkBlockNumber : (t : TableName) → Row t → Option Int
  | .blocks => fun r => some r.pkBlockNumber
  | .accounts => Account.fkBlockNumber
  | .transactions => Transaction.fkBlockNumber
  | .traces => Trace.fkBlockNumber
  | .accountActivities => AccountActivity.fkBlockNumber
  | .domains => Domain.fkBlockNumber
  | .domainActivities => DomainActivity.fkBlockNumber
  | .handles => Handle.fkBlockNumber
  | .handleActivities => HandleActivity.fkBlockNumber
  | .pubAddresses => PubAddress.fkBlockNumber
  | .nftSignatures => NftSignature.fkBlockNumber
  | .tokenTransfers => TokenTransfer.fkBlockNumber
  | .tokenStakings => TokenStaking.fkBlockNumber
  | .fioRequests => FioRequest.fkBlockNumber
  | .fioDatas => FioData.fkBlockNumber
  | .handlesAudit => HandleAudit.fkBlockNumber
  | .domainsAudit => DomainAudit.fkBlockNumber
  | .accountsAudit => AccountAudit.fkBlockNumber
  | .fioRequestsAudit => FioRequestAudit.fkBlockNumber
  | .fioDatasAudit => FioDataAudit.fkBlockNumber
  | .pubAddressesAudit => PubAddressAudit.fkBlockNumber
  | .nftSignaturesAudit => NftSignatureAudit.fkBlockNumber

def unique : (t : TableName) → List (Row t → Option String)
  | .blocks => [Block.blockId]
  | .accounts => [Account.accountName]
  | _ => []

/- The varchar columns without a CHECK list. The listed texts are shorter than their columns. -/
def varchars : (t : TableName) → List (Varchar (Row t))
  | .blocks => [⟨80,Block.blockId⟩,⟨12,Block.producerAccountName⟩,⟨64,Block.scheduleVersion⟩]
  | .accounts => [⟨12,Account.accountName⟩,⟨53,Account.publicKey⟩]
  | .transactions => [⟨80,Transaction.transactionId⟩,⟨12,Transaction.actionName⟩,⟨64,Transaction.tpid⟩,
      ⟨120,Transaction.resultStatus⟩]
  | .traces => [⟨12,Trace.actionName⟩]
  | .domains => [⟨62,Domain.domainName⟩]
  | .handles => [⟨64,Handle.handle⟩,⟨64,Handle.encryptionKey⟩]
  | .pubAddresses => [⟨12,PubAddress.chainCode⟩,⟨12,PubAddress.tokenCode⟩,⟨128,PubAddress.pubAddress⟩]
  | .nftSignatures => [⟨12,NftSignature.chainCode⟩,⟨128,NftSignature.contractAddress⟩,⟨128,NftSignature.tokenId⟩,
      ⟨128,NftSignature.nftUrl⟩,⟨64,NftSignature.nftHash⟩,⟨128,NftSignature.nftMetaData⟩]
  | .fioRequests => [⟨53,FioRequest.payerPubKey⟩,⟨53,FioRequest.payeePubKey⟩]
  | .fioDatas => [⟨53,FioData.payerPubKey⟩,⟨53,FioData.payeePubKey⟩]
  | .accountsAudit => [⟨12,AccountAudit.accountName⟩,⟨53,AccountAudit.publicKey⟩]
  | .domainsAudit => [⟨62,DomainAudit.domainName⟩]
  | .handlesAudit => [⟨64,HandleAudit.handle⟩,⟨64,HandleAudit.encryptionKey⟩]
  | .pubAddressesAudit => [⟨12,PubAddressAudit.chainCode⟩,⟨12,PubAddressAudit.tokenCode⟩,
      ⟨128,PubAddressAudit.pubAddress⟩]
  | .nftSignaturesAudit => [⟨12,NftSignatureAudit.chainCode⟩,⟨128,NftSignatureAudit.contractAddress⟩,
      ⟨128,NftSignatureAudit.tokenId⟩,⟨128,NftSignatureAudit.nftUrl⟩,⟨64,NftSignatureAudit.nftHash⟩,
      ⟨128,NftSignatureAudit.nftMetaData⟩]
  | .fioRequestsAudit => [⟨53,FioRequestAudit.payerPubKey⟩,⟨53,FioRequestAudit.payeePubKey⟩]
  | .fioDatasAudit => [⟨53,FioDataAudit.payerPubKey⟩,⟨53,FioDataAudit.payeePubKey⟩]
  | .accountActivities | .domainActivities | .handleActivities | .tokenTransfers | .tokenStakings => []

/- The REFERENCES clauses, table by table. The audit tables of public addresses and
NFT signatures declare none for the entity and the handle, so that a deletion can be
kept there. -/
def references : (t : TableName) → List (Reference TableName (Row t))
  | .blocks => []
  | .accounts => [⟨Account.fkBlockNumber,.blocks⟩]
  | .transactions => [⟨Transaction.fkBlockNumber,.blocks⟩,⟨Transaction.fkActionAccountId,.accounts⟩,
      ⟨Transaction.fkAccountId,.accounts⟩]
  | .traces => [⟨Trace.fkTransactionId,.transactions⟩,⟨Trace.fkBlockNumber,.blocks⟩,
      ⟨Trace.fkActionAccountId,.accounts⟩,⟨Trace.fkReceiverAccountId,.accounts⟩]
  | .accountActivities => [⟨AccountActivity.fkBlockNumber,.blocks⟩,⟨AccountActivity.fkAccountId,.accounts⟩,
      ⟨AccountActivity.fkTransactionId,.transactions⟩]
  | .domains => [⟨Domain.fkBlockNumber,.blocks⟩,⟨Domain.fkOwnerAccountId,.accounts⟩]
  | .domainActivities => [⟨DomainActivity.fkDomainId,.domains⟩,⟨DomainActivity.fkBlockNumber,.blocks⟩,
      ⟨DomainActivity.fkTransactionId,.transactions⟩]
  | .handles => [⟨Handle.fkBlockNumber,.blocks⟩,⟨Handle.fkDomainId,.domains⟩,
      ⟨Handle.fkOwnerAccountId,.accounts⟩]
  | .handleActivities => [⟨HandleActivity.fkHandleId,.handles⟩,⟨HandleActivity.fkBlockNumber,.blocks⟩,
      ⟨HandleActivity.fkTransactionId,.transactions⟩]
  | .pubAddresses => [⟨PubAddress.fkBlockNumber,.blocks⟩,⟨PubAddress.fkHandleId,.handles⟩]
  | .nftSignatures => [⟨NftSignature.fkBlockNumber,.blocks⟩,⟨NftSignature.fkHandleId,.handles⟩]
  | .tokenTransfers => [⟨TokenTransfer.fkBlockNumber,.blocks⟩,⟨TokenTransfer.fkPayerAccountId,.accounts⟩,
      ⟨TokenTransfer.fkPayeeAccountId,.accounts⟩,⟨TokenTransfer.fkTransactionId,.transactions⟩]
  | .tokenStakings => [⟨TokenStaking.fkBlockNumber,.blocks⟩,⟨TokenStaking.fkStakerAccountId,.accounts⟩,
      ⟨TokenStaking.fkTransactionId,.transactions⟩]
  | .fioRequests => [⟨FioRequest.fkBlockNumber,.blocks⟩,⟨FioRequest.fkPayerHandleId,.handles⟩,
      ⟨FioRequest.fkPayeeHandleId,.handles⟩,⟨FioRequest.fkTransactionId,.transactions⟩]
  | .fioDatas => [⟨FioData.fkBlockNumber,.blocks⟩,⟨FioData.fkPayerHandleId,.handles⟩,
      ⟨FioData.fkPayeeHandleId,.handles⟩,⟨FioData.fkTransactionId,.transactions⟩]
  | .handlesAudit => [⟨fun r => some r.fkHandleId,.handles⟩,⟨HandleAudit.fkBlockNumber,.blocks⟩,
      ⟨HandleAudit.fkTableOperationBlockNumber,.blocks⟩,⟨HandleAudit.fkDomainId,.domains⟩,
      ⟨HandleAudit.fkOwnerAccountId,.accounts⟩]
  | .domainsAudit => [⟨fun r => some r.fkDomainId,.domains⟩,⟨DomainAudit.fkBlockNumber,.blocks⟩,
      ⟨DomainAudit.fkTableOperationBlockNumber,.blocks⟩,⟨DomainAudit.fkOwnerAccountId,.accounts⟩]
  | .accountsAudit => [⟨fun r => some r.fkAccountId,.accounts⟩,⟨AccountAudit.fkBlockNumber,.blocks⟩,
      ⟨AccountAudit.fkTableOperationBlockNumber,.blocks⟩]
  | .fioRequestsAudit => [⟨fun r => some r.fkFioRequestsId,.fioRequests⟩,⟨FioRequestAudit.fkBlockNumber,.blocks⟩,
      ⟨FioRequestAudit.fkTableOperationBlockNumber,.blocks⟩,⟨FioRequestAudit.fkPayerHandleId,.handles⟩,
      ⟨FioRequestAudit.fkPayeeHandleId,.handles⟩,⟨FioRequestAudit.fkTransactionId,.transactions⟩]
  | .fioDatasAudit => [⟨fun r => some r.fkFioDatasId,.fioDatas⟩,⟨FioDataAudit.fkBlockNumber,.blocks⟩,
      ⟨FioDataAudit.fkTableOperationBlockNumber,.blocks⟩,⟨FioDataAudit.fkPayerHandleId,.handles⟩,
      ⟨FioDataAudit.fkPayeeHandleId,.handles⟩,⟨FioDataAudit.fkTransactionId,.transactions⟩]
  | .pubAddressesAudit => [⟨PubAddressAudit.fkBlockNumber,.blocks⟩,
      ⟨PubAddressAudit.fkTableOperationBlockNumber,.blocks⟩]
  | .nftSignaturesAudit => [⟨NftSignatureAudit.fkBlockNumber,.blocks⟩,
      ⟨NftSignatureAudit.fkTableOperationBlockNumber,.blocks⟩]

def tables : List TableName :=
  [.blocks,.accounts,.transactions,.traces,.accountActivities,.domains,.domainActivities,.handles,
    .handleActivities,.pubAddresses,.nftSignatures,.tokenTransfers,.tokenStakings,.fioRequests,.fioDatas,
    .handlesAudit,.domainsAudit,.accountsAudit,.fioRequestsAudit,.fioDatasAudit,.pubAddressesAudit,
    .nftSignaturesAudit]

@[reducible] def relic : Schema TableName where
  Row := Row
  decideRow := decideRow
  key := key
  serial := fun t => decide (t ≠ .blocks)
  varchars := varchars
  unique := unique
  references := references
  tables := tables
  complete := fun t => by cases t <;> decide

abbrev DB := Database relic
abbrev Proc (α : Type) := Relational.Proc relic α

namespace DB

def blockNumbers (s : DB) : List Int := (s .blocks).rows.map Block.pkBlockNumber

def head (s : DB) : Option Int := s.blockNumbers.max?

def stampOf (s : DB) (number : Option Int) : Option Timestamp :=
  ((s .blocks).rows.find? fun r => same (some r.pkBlockNumber) number).bind Block.stamp

end DB

/- What the scripts leave to the server: which of several matching rows a SELECT
INTO takes, and which timestamp a text denotes. -/
structure Server where
  takes : TableName → List Int → Nat
  timestamp : String → Option Timestamp

/- Assignment of a bigint to an int, as RETURN makes it in a function that RETURNS int. -/
def toInt (n : Option Int) : Proc (Option Int) := match n with
  | none => return none
  | some k => if fitsInt k then return some k else throw .outOfRange

theorem toIntOk {n v : Option Int} {s s' : DB} :
    toInt n s = .ok (v,s') ↔ v = n ∧ s' = s ∧ ∀ k, n = some k → fitsInt k = true := by
  cases n with
  | none => simp [toInt, pureOk]
  | some k =>
    by_cases fits : fitsInt k = true
    · simp [toInt, fits, pureOk]
    · simp only [toInt, if_neg fits]
      exact ⟨fun h => absurd h throwOk,fun h => absurd (h.2.2 k rfl) fits⟩

theorem fitsRuns {k : Int} {s : DB} (fits : fitsInt k = true) : toInt (some k) s = .ok (some k,s) :=
  toIntOk.mpr ⟨rfl,rfl,fun _ same => Option.some.inj same ▸ fits⟩

/- Assignment of an arithmetic result to a bigint variable. -/
def toBigint (n : Option Int) : Proc (Option Int) := match n with
  | none => return none
  | some k => if fitsBigint k then return some k else throw .outOfRange

theorem toBigintOk {n v : Option Int} {s s' : DB} :
    toBigint n s = .ok (v,s') ↔ v = n ∧ s' = s ∧ ∀ k, n = some k → fitsBigint k = true := by
  cases n with
  | none => simp [toBigint, pureOk]
  | some k =>
    by_cases fits : fitsBigint k = true
    · simp [toBigint, fits, pureOk]
    · simp only [toBigint, if_neg fits]
      exact ⟨fun h => absurd h throwOk,fun h => absurd (h.2.2 k rfl) fits⟩

section Select
variable (server : Server)

def select (t : TableName) (p : Row t → Bool) : Proc (Option (Row t)) := selectInto server.takes t p

end Select
end FioRelic

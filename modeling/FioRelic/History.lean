import FioRelic.Procedures.Ledger
import FioRelic.Procedures.Domains
import FioRelic.Procedures.Handles
import FioRelic.Procedures.Addresses
import FioRelic.Procedures.Requests
import FioRelic.Rollback

/-! Histories of stored-procedure calls. A call that raises leaves the rows as they were, but
what it drew from the sequences of its tables stays drawn. A node keeps, next to the
database, every stored block with the database just before that block was inserted, the
oldest first. -/
namespace FioRelic
open Relational

inductive Call where
  | insBlocks (bnumber : Option Int) (btimestamp blockid produceraccountname scheduleversion : Option String)
  | insUpdAccounts (fkblocknumber : Option Int) (accountname publickey : Option String)
      (blocktimestamp : Option Timestamp) (doupdates : Option Bool)
  | insTransactions (blocknumber : Option Int) (blocktimestamp : Option Timestamp)
      (transactionid actionaccount accountname actionname tpidhandle : Option String)
      (feeamount : Option Int) (requestdata responsedata statusvalue : Option String)
  | insTraces (fktransactionid fkblocknumber : Option Int) (actionaccount receiveraccountname : Option String)
      (actionordinal : Option Int) (actionname requestdata : Option String)
      (blocktimestamp : Option Timestamp)
  | insAccountActivities (fktransactionid fkblocknumber : Option Int) (actionaccount activitytype : Option String)
  | insAccountActivitiesHandle (fktransactionid fkblocknumber : Option Int) (fiohandle activitytype : Option String)
  | insTokenTransfers (fktransactionid fkblocknumber : Option Int) (payeraccount payeeaccount : Option String)
      (sufamount : Option Int) (tokentransfertype transfermemo : Option String)
      (blocktimestamp : Option Timestamp)
  | insTokenStakings (fktransactionid fkblocknumber : Option Int) (stakingaccount : Option String)
      (sufamount : Option Int)
  | getAccountPubKeyAndId (accountname : Option String)
  | insDomains (fkblocknumber : Option Int) (domainname owneraccount : Option String) (ispublic : Option Bool)
      (expirationtimestamp : Option Timestamp) (domainstatus : Option String)
  | insDomainActivities (fktransactionid fkblocknumber : Option Int) (domainname domainactivitytype : Option String)
      (blocktimestamp : Option Timestamp)
  | updDomainExp (domainname : Option String) (expirationtimestamp : Option Timestamp)
  | updDomainIsPublic (domainname : Option String) (ispublic : Option Bool)
  | updDomainOwner (domainname owneraccount : Option String)
  | updDomainBurnt (domainname : Option String)
  | insUpdHandles (fkblocknumber : Option Int) (domainname owneraccountname fiohandle encryptkey : Option String)
      (isencryptkeyset : Option Bool) (expirationtimestamp : Option Timestamp) (handlestatus : Option String)
  | updHandlesRenewBundles (blocknumber : Option Int) (fiohandle : Option String)
      (expirationtimestamp : Option Timestamp)
  | updHandlesAddBundles (blocknumber : Option Int) (fiohandle : Option String) (bundlesets : Option Int)
  | updHandlesXferOwner (blocknumber : Option Int) (fiohandle owneraccount encryptkey : Option String)
      (encryptkeyisset : Option Bool)
  | updHandlesEncryptKey (blocknumber : Option Int) (fiohandle encryptkey : Option String)
  | updHandlesSetEncryptKey (blocknumber : Option Int) (fiohandle encryptkey : Option String)
  | updHandlesStatus (blocknumber : Option Int) (fiohandle handlestatus : Option String)
  | updHandleBurnt (blocknumber : Option Int) (fiohandle : Option String)
  | insHandleActivities (fktransactionid fkblocknumber : Option Int) (fiohandle handleactivitytype : Option String)
      (blocktimestamp : Option Timestamp)
  | insUpdPubAddresses (fkblocknumber : Option Int) (fiohandle chaincode tokencode pubaddress : Option String)
  | delPubAddress (fiohandle chaincode tokencode pubaddress : Option String)
  | delPubAddresses (fiohandle : Option String)
  | clearPubAddresses (fiohandle : Option String)
  | existsPubAddress (fiohandle chaincode tokencode pubaddress : Option String)
  | insUpdNftSignatures (fkblocknumber : Option Int)
      (fiohandle chaincode contractaddress tokenid nfturl nfthash nftmetadata : Option String)
  | delNftSignature (fiohandle chaincode contractaddress tokenid : Option String)
  | delNftSignatures (fiohandle : Option String)
  | insFioRequests (fktransactionid fkblocknumber fkchainrequestid : Option Int)
      (payerhandle payeehandle : Option String) (binarycontent : Option Bytes) (requeststatus : Option String)
      (blocktimestamp : Option Timestamp)
  | updFioRequestsStatus (fkchainrequestid : Option Int) (requeststatus : Option String)
  | insFioDatas (fktransactionid fkblocknumber fkchainrequestid : Option Int)
      (payerhandle payeehandle : Option String) (binarycontent : Option Bytes) (requeststatus : Option String)
      (blocktimestamp : Option Timestamp)
  | insHandleActivitiesFioRequest (fktransactionid fkblocknumber fiochainrequestid : Option Int)
      (handleactivitytype : Option String) (blocktimestamp : Option Timestamp)
  | rbFork (bnumber : Option Int)
  deriving DecidableEq, Repr

namespace Call

def run (server : Server) : Call → Proc (Option Int)
  | insBlocks n t i p v => FioRelic.insBlocks server n t i p v
  | insUpdAccounts b n k t u => FioRelic.insUpdAccounts server b n k t u
  | insTransactions b t x ac an a p f q r v => FioRelic.insTransactions server b t x ac an a p f q r v
  | insTraces x b ac rc o a q t => FioRelic.insTraces server x b ac rc o a q t
  | insAccountActivities x b a k => FioRelic.insAccountActivities server x b a k
  | insAccountActivitiesHandle x b h k => FioRelic.insAccountActivitiesHandle server x b h k
  | insTokenTransfers x b p q a k m t => FioRelic.insTokenTransfers server x b p q a k m t
  | insTokenStakings x b n a => FioRelic.insTokenStakings server x b n a
  | getAccountPubKeyAndId n => do
    let _ ← FioRelic.getAccountPubKeyAndId n
    return none
  | insDomains b n o p t v => FioRelic.insDomains server b n o p t v
  | insDomainActivities x b n k t => FioRelic.insDomainActivities server x b n k t
  | updDomainExp n t => FioRelic.updDomainExp server n t
  | updDomainIsPublic n p => FioRelic.updDomainIsPublic server n p
  | updDomainOwner n o => FioRelic.updDomainOwner server n o
  | updDomainBurnt n => FioRelic.updDomainBurnt n
  | insUpdHandles b d o h k i t v => FioRelic.insUpdHandles server b d o h k i t v
  | updHandlesRenewBundles b h t => FioRelic.updHandlesRenewBundles b h t
  | updHandlesAddBundles b h n => FioRelic.updHandlesAddBundles b h n
  | updHandlesXferOwner b h o k i => FioRelic.updHandlesXferOwner server b h o k i
  | updHandlesEncryptKey b h k => FioRelic.updHandlesEncryptKey server b h k
  | updHandlesSetEncryptKey b h k => FioRelic.updHandlesSetEncryptKey server b h k
  | updHandlesStatus b h v => FioRelic.updHandlesStatus server b h v
  | updHandleBurnt b h => FioRelic.updHandleBurnt server b h
  | insHandleActivities x b h k t => FioRelic.insHandleActivities server x b h k t
  | insUpdPubAddresses b h c k a => FioRelic.insUpdPubAddresses server b h c k a
  | delPubAddress h c k a => FioRelic.delPubAddress server h c k a
  | delPubAddresses h => FioRelic.delPubAddresses server h
  | clearPubAddresses h => FioRelic.clearPubAddresses server h
  | existsPubAddress h c k a => FioRelic.existsPubAddress server h c k a
  | insUpdNftSignatures b h c a i u x m => FioRelic.insUpdNftSignatures server b h c a i u x m
  | delNftSignature h c a i => FioRelic.delNftSignature server h c a i
  | delNftSignatures h => FioRelic.delNftSignatures server h
  | insFioRequests x b q p r c v t => FioRelic.insFioRequests server x b q p r c v t
  | updFioRequestsStatus q v => FioRelic.updFioRequestsStatus server q v
  | insFioDatas x b q p r c v t => FioRelic.insFioDatas server x b q p r c v t
  | insHandleActivitiesFioRequest x b q k t => FioRelic.insHandleActivitiesFioRequest server x b q k t
  | rbFork b => FioRelic.rbFork b

def blockArgument : Call → Option (Option Int)
  | insUpdAccounts b .. | insTransactions b .. | insTraces _ b .. | insAccountActivities _ b ..
  | insAccountActivitiesHandle _ b .. | insTokenTransfers _ b .. | insTokenStakings _ b ..
  | insDomains b .. | insDomainActivities _ b .. | insUpdHandles b .. | updHandlesRenewBundles b ..
  | updHandlesAddBundles b .. | updHandlesXferOwner b .. | updHandlesEncryptKey b ..
  | updHandlesSetEncryptKey b .. | updHandlesStatus b .. | updHandleBurnt b ..
  | insHandleActivities _ b .. | insUpdPubAddresses b .. | insUpdNftSignatures b ..
  | insFioRequests _ b .. | insFioDatas _ b .. | insHandleActivitiesFioRequest _ b .. => some b
  | _ => none

def forks : Call → Option Int
  | rbFork b => b
  | _ => none

def footprint : Call → List TableName
  | insBlocks .. => [.blocks]
  | insUpdAccounts .. => [.accounts,.accountsAudit]
  | insTransactions .. => [.accounts,.transactions]
  | insTraces .. => [.accounts,.traces]
  | insAccountActivities .. | insAccountActivitiesHandle .. => [.accountActivities]
  | insTokenTransfers .. => [.accounts,.accountsAudit,.tokenTransfers]
  | insTokenStakings .. => [.tokenStakings]
  | insDomains .. => [.domains]
  | insDomainActivities .. => [.domainActivities]
  | updDomainExp .. | updDomainIsPublic .. | updDomainOwner .. | updDomainBurnt .. => [.domains,.domainsAudit]
  | insUpdHandles .. | updHandlesXferOwner .. | updHandlesEncryptKey .. | updHandlesSetEncryptKey ..
  | updHandlesStatus .. | updHandleBurnt .. => [.handles,.handlesAudit]
  | insHandleActivities .. | insHandleActivitiesFioRequest .. => [.handleActivities]
  | insUpdPubAddresses .. | delPubAddress .. | delPubAddresses .. | clearPubAddresses .. =>
    [.pubAddresses,.pubAddressesAudit]
  | insUpdNftSignatures .. | delNftSignature .. | delNftSignatures .. => [.nftSignatures,.nftSignaturesAudit]
  | insFioRequests .. => [.fioRequests]
  | updFioRequestsStatus .. => [.fioRequests,.fioRequestsAudit]
  | insFioDatas .. => [.fioDatas]
  | rbFork _ => tables
  | getAccountPubKeyAndId _ | existsPubAddress .. | updHandlesRenewBundles .. | updHandlesAddBundles .. => []

/- Chain order: a new block is above every stored one, and a call that takes a block
number is given the head block. -/
def InOrder (s : DB) : Call → Prop
  | insBlocks (some n) .. => ∀ k ∈ DB.blockNumbers s, k < n
  | c => ∀ b, c.blockArgument = some b → b.isSome ∧ b = DB.head s

instance (s : DB) (given : Option (Option Int)) :
    Decidable (∀ b, given = some b → b.isSome = true ∧ b = DB.head s) :=
  match given with
  | none => isTrue fun _ h => by cases h
  | some b => decidable_of_iff (b.isSome = true ∧ b = DB.head s)
      ⟨fun h b' same => Option.some.inj same ▸ h,fun h => h b rfl⟩

instance (s : DB) (c : Call) : Decidable (c.InOrder s) := by
  unfold InOrder
  split <;> infer_instance

end Call

/- Should the call raise, `lost` is how far each sequence it draws from has moved. -/
structure Event where
  server : Server
  call : Call
  lost : TableName → Nat

def Event.drawn (e : Event) (t : TableName) : Nat := if t ∈ e.call.footprint then e.lost t else 0

def leastServer : Server := ⟨fun _ _ => 0,fun _ => none⟩

def events (calls : List Call) : List Event := calls.map fun c => ⟨leastServer,c,fun _ => 0⟩

structure Node where
  db : DB
  before : List (Int × DB)

namespace Node

def empty : Node := ⟨Database.empty relic,[]⟩

def advance (n : Node) (s : DB) : Node :=
  let inserted := (DB.blockNumbers s).filter fun k => decide (k ∉ DB.blockNumbers n.db)
  ⟨s,(n.before.filter fun p => decide (p.1 ∈ DB.blockNumbers s)) ++ inserted.map fun k => (k,n.db)⟩

def step (n : Node) (e : Event) : Node := match e.call.run e.server n.db with
  | .ok result => n.advance result.2
  | .error _ => ⟨n.db.skip e.drawn,n.before⟩

end Node

def runFrom (n : Node) (history : List Event) : Node := history.foldl Node.step n

def run (history : List Event) : Node := runFrom Node.empty history

section Steps
variable {n : Node} {e : Event} {v : Option Int} {s' : DB} {raised : Error}

theorem stepAdvances (ran : e.call.run e.server n.db = .ok (v,s')) : n.step e = n.advance s' := by
  unfold Node.step
  rw [ran]

theorem stepRan (ran : e.call.run e.server n.db = .ok (v,s')) : (n.step e).db = s' := by
  rw [stepAdvances ran]
  rfl

theorem stepRaised (ran : e.call.run e.server n.db = .error raised) :
    n.step e = ⟨n.db.skip e.drawn,n.before⟩ := by
  unfold Node.step
  rw [ran]

theorem runLast (history : List Event) (e : Event) : run (history ++ [e]) = (run history).step e := by
  simp only [run, runFrom, List.foldl_append, List.foldl_cons, List.foldl_nil]

end Steps

def MeetsFrom (condition : Node → Event → Prop) (n : Node) : List Event → Prop
  | [] => True
  | e :: rest => condition n e ∧ MeetsFrom condition (n.step e) rest

def Meets (condition : Node → Event → Prop) (history : List Event) : Prop :=
  MeetsFrom condition Node.empty history

instance decideMeetsFrom (condition : Node → Event → Prop) [∀ n e, Decidable (condition n e)] (n : Node) :
    (history : List Event) → Decidable (MeetsFrom condition n history)
  | [] => isTrue trivial
  | e :: rest =>
    have := decideMeetsFrom condition (n.step e) rest
    inferInstanceAs (Decidable (condition n e ∧ MeetsFrom condition (n.step e) rest))

instance (condition : Node → Event → Prop) [∀ n e, Decidable (condition n e)] (history : List Event) :
    Decidable (Meets condition history) := inferInstanceAs (Decidable (MeetsFrom condition Node.empty history))

theorem meetsBoth {p q : Node → Event → Prop} {history : List Event} (first : Meets p history) (second : Meets q history) :
    Meets (fun n e => p n e ∧ q n e) history := by
  have along : ∀ n, MeetsFrom p n history → MeetsFrom q n history → MeetsFrom (fun n e => p n e ∧ q n e) n history := by
    clear first second
    induction history with
    | nil => exact fun _ _ _ => trivial
    | cons e rest ih => exact fun n first second => ⟨⟨first.1,second.1⟩,ih (n.step e) first.2 second.2⟩
  exact along Node.empty first second

theorem meetsAppend {condition : Node → Event → Prop} {early late : List Event}
    (meets : Meets condition (early ++ late)) : Meets condition early ∧ MeetsFrom condition (run early) late := by
  have along : ∀ n, MeetsFrom condition n (early ++ late) →
      MeetsFrom condition n early ∧ MeetsFrom condition (runFrom n early) late := by
    clear meets
    induction early with
    | nil => exact fun n holds => ⟨trivial,holds⟩
    | cons e rest ih =>
      intro n ⟨first,later⟩
      obtain ⟨before,after⟩ := ih (n.step e) later
      exact ⟨⟨first,before⟩,after⟩
  exact along Node.empty meets

def AtForks (condition : Int → DB → Prop) (n : Node) (e : Event) : Prop :=
  ∀ b, e.call.forks = some b → condition b n.db

instance (condition : Int → DB → Prop) [∀ b s, Decidable (condition b s)] (n : Node) (e : Event) :
    Decidable (AtForks condition n e) :=
  match given : e.call.forks with
  | some b => decidable_of_iff (condition b n.db)
      ⟨fun h b' same => by cases given.symm.trans same; exact h,fun h => h b given⟩
  | none => isTrue fun b same => by cases given.symm.trans same

def ChainOrder (history : List Event) : Prop := Meets (fun n e => e.call.InOrder n.db) history

instance (history : List Event) : Decidable (ChainOrder history) :=
  inferInstanceAs (Decidable (Meets (fun n e => e.call.InOrder n.db) history))

theorem meetsAll {condition : Node → Event → Prop} {history : List Event} (all : ∀ e ∈ history, ∀ n, condition n e) :
    Meets condition history := by
  have along : ∀ n, MeetsFrom condition n history := by
    induction history with
    | nil => exact fun _ => trivial
    | cons e rest ih =>
      exact fun n => ⟨all e List.mem_cons_self n,ih (fun e' mem => all e' (List.mem_cons_of_mem _ mem)) (n.step e)⟩
  exact along Node.empty

theorem meetsEach {condition : Event → Prop} {history : List Event} (each : ∀ e ∈ history, condition e) :
    Meets (fun _ e => condition e) history := meetsAll fun e mem _ => each e mem

/- The database just before the first currently stored block numbered b or more was
inserted; the current one if there is no such block. -/
def Node.beforeBlock (n : Node) (b : Int) : DB := match n.before.find? fun p => decide (b ≤ p.1) with
  | some p => p.2
  | none => n.db

end FioRelic

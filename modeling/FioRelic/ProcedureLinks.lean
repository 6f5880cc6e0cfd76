import FioRelic.Effects
import FioRelic.Relational.Keeps
import FioRelic.Versioning.Linkage

/-! One lemma for each stored procedure: at the head it keeps every table without deletions
linked to its log. Most procedures stamp the rows they write. instokentransfers, the four
updates of domains and updfiorequestsstatus keep the old number, so it has to be the head's. -/
namespace FioRelic
open Relational Versioning

def domainNamed (server : Server) (s : DB) (name : Option String) : List Domain :=
  (chosen (server.takes .domains) .domains (fun r : Domain => same r.domainName name) s).toList

def Call.keptBlocks (server : Server) (s : DB) : Call → List (Option Int)
  | .insTokenTransfers _ _ payer payee amount .. =>
    if amount = some 0 then []
    else ((s .accounts).rows.filter fun r => same r.accountName payer || same r.accountName payee).map Account.fkBlockNumber
  | .updDomainExp name expiration =>
    ((domainNamed server s name).filter fun r => decide (r.expirationTimestamp ≠ expiration)).map Domain.fkBlockNumber
  | .updDomainIsPublic name ispublic =>
    ((domainNamed server s name).filter fun r => decide (r.isPublic ≠ ispublic)).map Domain.fkBlockNumber
  | .updDomainOwner name owneraccount =>
    let owner := chosen (server.takes .accounts) .accounts (fun r : Account => same r.accountName owneraccount) s
    ((domainNamed server s name).filter fun r =>
      decide (r.fkOwnerAccountId ≠ owner.map Account.pkAccountId)).map Domain.fkBlockNumber
  | .updDomainBurnt name =>
    ((s .domains).rows.filter fun r => same r.domainName name &&
      decide (r.domainStatus.text ≠ "burnt" ∨ r.fkOwnerAccountId ≠ none)).map Domain.fkBlockNumber
  | .updFioRequestsStatus id status =>
    ((chosen (server.takes .fioRequests) .fioRequests (fun r : FioRequest => same r.fioChainRequestId id) s).toList.filter
      fun r => decide (some r.requestStatus.text ≠ status)).map FioRequest.fkBlockNumber
  | _ => []

def TableName.entered : TableName → Bool
  | .blocks | .handlesAudit | .domainsAudit | .accountsAudit | .fioRequestsAudit | .fioDatasAudit | .pubAddressesAudit
  | .nftSignaturesAudit => false
  | _ => true

theorem enteredApart {t : TableName} (entered : t.entered = true) : t ≠ .blocks ∧ ∀ a : Audited, a.log ≠ t := by
  constructor
  · rintro rfl
    cases entered
  · intro a same
    subst same
    cases a <;> cases entered

section
variable {s : DB} {a a' : Audited} {rows : List (Row a.table)} {entries : List (Row a.log)}

theorem writtenHead : DB.head ((s.withRows a.table rows).append a.log entries) = DB.head s := by
  rw [DB.headAppend a.logBlocks, DB.headWithRows a.tableBlocks]

theorem writtenApart (other : a' ≠ a) :
    a'.seen ((s.withRows a.table rows).append a.log entries) = a'.seen s ∧
      ((s.withRows a.table rows).append a.log entries) a'.log = s a'.log := by
  unfold Audited.seen
  rw [Database.appendOther _ (a'.tableLog a), Database.withRowsOther _ (Audited.tableInjective other),
    Database.appendOther _ (Audited.logInjective other), Database.withRowsOther _ (a.tableLog a').symm]
  exact ⟨rfl,rfl⟩

end

structure Linking (head : Option Int) (s : DB) : Prop where
  valid : s.Valid
  serial : s.Serial
  top : DB.head s = head
  linked : ∀ a : Audited, a.deletes = false → a.layout.Linked (a.seen s) (s a.log).rows

namespace Linking
variable {head : Option Int} {s : DB}

theorem insert {t : TableName} {row : Int → Row t} (entered : t.entered = true) (number : ∀ k, key t (row k) = k) :
    Keeps (Linking head) s (insertInto t row) := by
  intro linking v s' ran
  obtain ⟨_,rfl,valid⟩ := insertIntoOk.mp ran
  obtain ⟨block,logs⟩ := enteredApart entered
  refine ⟨valid,insertedSerial linking.serial (number _),(DB.headAppend block _).trans linking.top,fun a keeps => ?_⟩
  rw [Database.appendOther _ (logs a)]
  by_cases own : a.table = t
  · subst own
    rw [seenAppend (by rw [Database.appendSame])]
    refine linkedInsert (fun listed => ?_) (linking.linked a keeps)
    obtain ⟨e,mem,same⟩ := List.mem_map.mp listed
    have issued := entityIssued linking.valid linking.serial keeps mem
    have fresh : a.layout.entity e = (s a.table).next := same.trans ((a.keyCopied _).trans (number _))
    omega
  · have seen : a.seen (s.append t [row (s t).next]) = a.seen s := by
      unfold Audited.seen
      rw [Database.appendOther _ own]
    rw [seen]
    exact linking.linked a keeps

theorem update (a : Audited) {p : Row a.table → Bool} {assign : Row a.table → Row a.table}
    (numbers : ∀ r, key a.table (assign r) = key a.table r)
    (stamped : a.deletes = false → Linking head s →
      ∀ r ∈ changed p assign (s a.table).rows, fkBlockNumber a.table (assign r) = head) :
    Keeps (Linking head) s (update a.table p assign) := by
  intro linking v s' ran
  obtain ⟨entries,logged,rfl,_,valid⟩ := updateWrites ran
  have keyed : ∀ r ∈ (s a.table).rows, p r = true → key a.table (assign r) = key a.table r := fun r _ _ => numbers r
  have sub : (((s a.table).rows.map (assigned p assign)).map (key a.table)).Sublist (s.keys a.table) := by
    rw [assignedKeys keyed]
  refine ⟨valid,writtenSerial linking.serial sub logged.drawn,writtenHead.trans linking.top,fun a' keeps => ?_⟩
  by_cases own : a' = a
  · subst own
    have logs : Logs a'.layout a'.copied (DB.head s) (changed p assign (s a'.table).rows) entries :=
      entriesLogs logged fun old _ => by
        cases a' <;> first
          | rfl
          | cases keeps
    rw [seenWritten, logWritten]
    refine linkedWrite (updateLayout linking.valid keyed logs) (fun r mem listed => ?_) (linking.linked a' keeps)
    obtain ⟨moved,inMoved,rfl⟩ := List.mem_map.mp mem
    obtain ⟨old,inRows,rfl⟩ := List.mem_map.mp inMoved
    have number : a'.layout.key (a'.copied (assigned p assign old)) = a'.layout.key (a'.copied old) := by
      change key a'.table (a'.copied (assigned p assign old)) = key a'.table (a'.copied old)
      rw [a'.keyCopied, a'.keyCopied, assignedKept keyed old inRows]
    have hit := loggedHit linking.valid (fun r hit => (changedSub hit).1) logs inRows (number ▸ listed)
    rw [assigned, if_pos (changedSub hit).2, linking.top]
    exact (a'.stampCopied _).trans (stamped keeps linking old hit)
  · rw [(writtenApart own).1, (writtenApart own).2]
    exact linking.linked a' keeps

theorem delete (a : Audited) (deletes : a.deletes = true) {p : Row a.table → Bool} :
    Keeps (Linking head) s (delete a.table p) := by
  intro linking v s' ran
  obtain ⟨entries,logged,rfl,_,valid⟩ := deleteWrites deletes ran
  have sub : (((s a.table).rows.filter fun r => !p r).map (key a.table)).Sublist (s.keys a.table) :=
    List.filter_sublist.map _
  refine ⟨valid,writtenSerial linking.serial sub logged.drawn,writtenHead.trans linking.top,fun a' keeps => ?_⟩
  have own : a' ≠ a := fun same => by
    rw [same, deletes] at keeps
    cases keeps
  rw [(writtenApart own).1, (writtenApart own).2]
  exact linking.linked a' keeps

end Linking
section Reads
variable {s : DB} {n : Option Int}

theorem toIntReads : Reads s (toInt n) := fun _ _ ran => (toIntOk.mp ran).2.1

theorem toBigintReads : Reads s (toBigint n) := fun _ _ ran => (toBigintOk.mp ran).2.1

theorem handleIdReads {server : Server} {name : Option String} : Reads s (handleId server name) :=
  Reads.bind Reads.select fun _ => Reads.pure

end Reads

section Calls
variable {server : Server} {head : Option Int} {s : DB}

theorem accountLinks {b : Option Int} {name publicKey : Option String} {opening : Option Int} {stamp : Option Timestamp} :
    Keeps (Linking head) s
      (insertInto (S := relic) .accounts fun pk => (⟨pk,b,name,publicKey,opening,stamp⟩ : Account)) :=
  .insert rfl fun _ => rfl

theorem actorLinks {b : Option Int} {name : Option String} {stamp : Option Timestamp} {rest : Option Int → Proc (Option Int)}
    (later : ∀ id m, Keeps (Linking head) m (rest id)) : Keeps (Linking head) s (withActor server b name stamp rest) := by
  refine .select ?_
  cases chosen (server.takes .accounts) .accounts (fun r : Account => same r.accountName name) s with
  | some account => exact .bind .pure fun id m _ _ => later id m
  | none =>
    refine .ite (fun _ => ?_) fun _ => .ite (fun _ => ?_) fun _ => .bind .pure fun id m _ _ => later id m
    · exact .bind accountLinks fun _ _ _ _ => .bind .pure fun id m _ _ => later id m
    · exact .bind accountLinks fun _ _ _ _ => .bind .pure fun id m _ _ => later id m

theorem insTransactionsLinks {b f : Option Int} {t : Option Timestamp} {x ac an a p q r w : Option String} :
    Keeps (Linking head) s (insTransactions server b t x ac an a p f q r w) := by
  have tail : ∀ (id : Int) (m : DB), Keeps (Linking head) m (withActor server b an t fun accountid => do
      let pkid ← insertInto (S := relic) .transactions fun pk =>
        (⟨pk,b,t,cut 80 x,some id,accountid,cut 12 a,cut 64 p,f,q,r,cut 120 w⟩ : Transaction)
      toInt (some pkid)) :=
    fun _ _ => actorLinks fun _ _ => .bind (.insert rfl fun _ => rfl) fun _ _ _ _ => .reads toIntReads
  refine .guarded (.select ?_)
  cases chosen (server.takes .accounts) .accounts (fun r : Account => same r.accountName ac) s with
  | some account => exact .bind .pure fun id m _ _ => tail id m
  | none => exact .ite (fun _ => .raise) fun _ => .bind accountLinks fun id m _ _ => tail id m

theorem insTracesLinks {x b o : Option Int} {ac rc a q : Option String} {t : Option Timestamp} :
    Keeps (Linking head) s (insTraces server x b ac rc o a q t) := by
  have tail : ∀ (id : Int) (m : DB), Keeps (Linking head) m (withActor server b rc t fun accountid => do
      let pkid ← insertInto (S := relic) .traces fun pk => (⟨pk,x,b,some id,accountid,o,cut 12 a,q⟩ : Trace)
      toInt (some pkid)) :=
    fun _ _ => actorLinks fun _ _ => .bind (.insert rfl fun _ => rfl) fun _ _ _ _ => .reads toIntReads
  refine .guarded (.select ?_)
  cases chosen (server.takes .accounts) .accounts (fun r : Account => same r.accountName ac) s with
  | some account => exact .bind .pure fun id m _ _ => tail id m
  | none =>
    exact .ite (fun _ => .bind accountLinks fun id m _ _ => tail id m) fun _ => .bind accountLinks fun id m _ _ => tail id m

theorem changedFound {a : Audited} (found : Option (Row a.table)) {assign : Row a.table → Row a.table} (valid : s.Valid)
    (stored : ∀ r, found = some r → r ∈ (s a.table).rows) {r : Row a.table}
    (hit : r ∈ changed (fun r => same (some (key a.table r)) (found.map (key a.table))) assign (s a.table).rows) :
    found = some r ∧ r ≠ assign r := by
  obtain ⟨mem,moves⟩ := List.mem_filter.mp hit
  rw [Bool.and_eq_true] at moves
  obtain ⟨id,own,given⟩ := sameTrue.mp moves.1
  obtain ⟨r',known,number⟩ := Option.map_eq_some_iff.mp given
  have same : r = r' := valid.sameRow mem (stored r' known) ((Option.some.inj own).trans number.symm)
  exact ⟨same ▸ known,of_decide_eq_true moves.2⟩

theorem domainLinks {name : Option String} {assign : Domain → Domain} {differ : Domain → Bool}
    (numbers : ∀ r, (assign r).pkDomainId = r.pkDomainId) (stamps : ∀ r, (assign r).fkBlockNumber = r.fkBlockNumber)
    (still : ∀ r, differ r = false → r = assign r)
    (kept : ∀ b ∈ ((domainNamed server s name).filter differ).map Domain.fkBlockNumber, b = head) :
    Keeps (Linking head) s (update .domains (fun r => same (some r.pkDomainId)
      ((chosen (server.takes .domains) .domains (fun r : Domain => same r.domainName name) s).map Domain.pkDomainId))
      assign) := by
  refine Linking.update .domains numbers fun _ linking r hit => ?_
  obtain ⟨found,moves⟩ := changedFound (a := .domains) _ linking.valid (fun r found => (chosenSome found).1) hit
  have differs : differ r = true := by
    cases same : differ r with
    | true => rfl
    | false => exact absurd (still r same) moves
  have listed : r ∈ (domainNamed server s name).filter differ :=
    List.mem_filter.mpr ⟨by rw [domainNamed, found]; exact List.mem_singleton.mpr rfl,differs⟩
  exact (stamps r).trans (kept _ (List.mem_map_of_mem listed))

theorem updDomainExpLinks {name : Option String} {t : Option Timestamp}
    (kept : ∀ b ∈ (Call.updDomainExp name t).keptBlocks server s, b = head) :
    Keeps (Linking head) s (updDomainExp server name t) := by
  refine .select (.bind (domainLinks (fun _ => rfl) (fun _ => rfl) (fun r same => ?_) kept) fun _ _ _ _ => .reads toIntReads)
  simp only [ne_eq, decide_eq_false_iff_not, not_not] at same
  rw [← same]

theorem updDomainIsPublicLinks {name : Option String} {p : Option Bool}
    (kept : ∀ b ∈ (Call.updDomainIsPublic name p).keptBlocks server s, b = head) :
    Keeps (Linking head) s (updDomainIsPublic server name p) := by
  refine .select (.bind (domainLinks (fun _ => rfl) (fun _ => rfl) (fun r same => ?_) kept) fun _ _ _ _ => .reads toIntReads)
  simp only [ne_eq, decide_eq_false_iff_not, not_not] at same
  rw [← same]

theorem updDomainOwnerLinks {name o : Option String}
    (kept : ∀ b ∈ (Call.updDomainOwner name o).keptBlocks server s, b = head) :
    Keeps (Linking head) s (updDomainOwner server name o) := by
  refine .select (.select (.bind (domainLinks (fun _ => rfl) (fun _ => rfl) (fun r same => ?_) kept)
    fun _ _ _ _ => .reads toIntReads))
  simp only [ne_eq, decide_eq_false_iff_not, not_not] at same
  rw [← same]

theorem oneOfSame {allowed : List String} {x y : OneOf allowed} (same : x.text = y.text) : x = y := by
  cases x with
  | mk text listed =>
    change text = y.text at same
    subst same
    rfl

theorem updDomainBurntLinks {name : Option String} (kept : ∀ b ∈ (Call.updDomainBurnt name).keptBlocks server s, b = head) :
    Keeps (Linking head) s (updDomainBurnt name) := by
  refine .bind (Linking.update .domains (fun _ => rfl) fun _ _ r hit => ?_) fun _ _ _ _ => .pure
  obtain ⟨mem,moves⟩ := List.mem_filter.mp hit
  rw [Bool.and_eq_true] at moves
  have differs : r.domainStatus.text ≠ "burnt" ∨ r.fkOwnerAccountId ≠ none := by
    by_contra settled
    rw [not_or, not_not, not_not] at settled
    have status : r.domainStatus = ⟨"burnt",by decide⟩ := oneOfSame settled.1
    exact of_decide_eq_true moves.2 (by rw [← status, ← settled.2])
  change r.fkBlockNumber = head
  exact kept _ (List.mem_map_of_mem (List.mem_filter.mpr ⟨mem,Bool.and_eq_true_iff.mpr ⟨moves.1,decide_eq_true differs⟩⟩))

theorem updFioRequestsStatusLinks {id : Option Int} {status : Option String}
    (kept : ∀ b ∈ (Call.updFioRequestsStatus id status).keptBlocks server s, b = head) :
    Keeps (Linking head) s (updFioRequestsStatus server id status) := by
  refine .select ?_
  cases found : chosen (server.takes .fioRequests) .fioRequests (fun r : FioRequest => same r.fioChainRequestId id) s with
  | none => exact .pure
  | some row =>
    refine .after Reads.oneOf fun value ran => ?_
    obtain ⟨given,_⟩ := oneOfOk.mp ran
    refine .bind (Linking.update .fioRequests (fun _ => rfl) fun _ linking r hit => ?_) fun _ _ _ _ => .reads toIntReads
    obtain ⟨own,moves⟩ := changedFound (a := .fioRequests) (some row) linking.valid
      (fun r own => Option.some.inj own ▸ (chosenSome found).1) hit
    cases own
    have differs : some row.requestStatus.text ≠ status := by
      intro same
      have status : row.requestStatus = value := oneOfSame (Option.some.inj (same.trans given))
      exact moves (by rw [← status])
    change row.fkBlockNumber = head
    refine kept _ (List.mem_map_of_mem (List.mem_filter.mpr ⟨?_,decide_eq_true differs⟩))
    rw [found]
    exact List.mem_singleton.mpr rfl

structure Transferring (head : Option Int) (p q : Option String) (a : Option Int) (s : DB) : Prop where
  linking : Linking head s
  stamped : a ≠ some 0 → ∀ r ∈ (s .accounts).rows, (same r.accountName p || same r.accountName q) = true →
    r.fkBlockNumber = head

section Transfer
variable {p q : Option String} {a : Option Int}

theorem balanceLinks (id : Option Int) {balance : Option Int}
    (held : Transferring head p q a s → ∀ r ∈ (s .accounts).rows, same (some r.pkAccountId) id = true →
      r.fioBalanceSuf = balance ∨ r.fkBlockNumber = head) :
    Keeps (Transferring head p q a) s
      (update .accounts (fun r => same (some r.pkAccountId) id) fun r => { r with fioBalanceSuf := balance }) := by
  intro transferring v s' ran
  have keeps : Keeps (Linking head) s (update .accounts (fun r : Account => same (some r.pkAccountId) id) fun r : Account =>
      { r with fioBalanceSuf := balance }) := by
    refine Linking.update .accounts (fun _ => rfl) fun _ _ r hit => ?_
    obtain ⟨mem,moves⟩ := List.mem_filter.mp hit
    rw [Bool.and_eq_true] at moves
    rcases held transferring r mem moves.1 with equal | stamped
    · exact absurd (by rw [← equal]) (of_decide_eq_true moves.2)
    · exact stamped
  refine ⟨keeps transferring.linking v s' ran,fun something r mem named => ?_⟩
  obtain ⟨entries,_,rfl,_,_⟩ := updateWrites (a := .accounts) ran
  rw [Database.appendOther _ (by decide), Database.withRowsSame] at mem
  obtain ⟨old,stored,rfl⟩ := List.mem_map.mp mem
  unfold assigned at named ⊢
  split at named
  · rename_i hit
    rw [if_pos hit]
    exact transferring.stamped something old stored named
  · rename_i miss
    rw [if_neg miss]
    exact transferring.stamped something old stored named

def Credited (head a : Option Int) (s : DB) (credited : Int × Option Int) : Prop :=
  ∃ r ∈ (s .accounts).rows, r.pkAccountId = credited.1 ∧ r.fioBalanceSuf = credited.2 ∧
    (a ≠ some 0 → r.fkBlockNumber = head)

theorem creditLinks {x b paidBy : Option Int} {k w : Option String} {t : Option Timestamp} {credited : Int × Option Int}
    (known : Transferring head p q a s → Credited head a s credited) :
    Keeps (Transferring head p q a) s (creditPayee x b paidBy a k w t credited) := by
  refine .after toBigintReads fun balance ran => .ite (fun _ => .raise) fun _ => ?_
  obtain ⟨sum,_⟩ := toBigintOk.mp ran
  refine .bind (balanceLinks (some credited.1) fun transferring r mem own => ?_) fun _ m _ _ => ?_
  · obtain ⟨r',stored,number,balanced,stamped⟩ := known transferring
    have same : r = r' :=
      transferring.linking.valid.sameRow (t := .accounts) mem stored ((of_decide_eq_true own).trans number.symm)
    subst same
    by_cases nothing : a = some 0
    · left
      rw [sum, nothing, ← balanced]
      cases r.fioBalanceSuf <;> simp [plus]
    · exact Or.inr (stamped nothing)
  · refine .after Reads.oneOf fun transferType _ => .bind ?_ fun _ _ _ _ => .reads toIntReads
    intro transferring v s' ran
    have linking := Linking.insert rfl (fun _ => rfl) transferring.linking v s' ran
    obtain ⟨_,rfl,_⟩ := insertIntoOk.mp ran
    refine ⟨linking,fun something r mem => ?_⟩
    rw [Database.appendOther _ (by decide)] at mem
    exact transferring.stamped something r mem

theorem insTokenTransfersLinks {x b : Option Int} {k w : Option String} {t : Option Timestamp} (given : b = head) :
    Keeps (Transferring head p q a) s (insTokenTransfers server x b p q a k w t) := by
  refine .guarded (.select (.after toBigintReads fun balance ran => .ite (fun _ => .raise) fun _ => ?_))
  obtain ⟨rest,_⟩ := toBigintOk.mp ran
  refine .bind (balanceLinks _ fun transferring r mem own => ?_) fun _ m _ _ => ?_
  · obtain ⟨id,number,refers⟩ := sameTrue.mp own
    obtain ⟨payer,known,number'⟩ := Option.map_eq_some_iff.mp refers
    obtain ⟨stored,named⟩ := chosenSome known
    have same : r = payer := transferring.linking.valid.sameRow (t := .accounts) mem stored
      ((Option.some.inj number).trans number'.symm)
    subst same
    by_cases nothing : a = some 0
    · left
      rw [rest, nothing, known, Option.bind_some]
      cases r.fioBalanceSuf <;> simp [minus]
    · exact Or.inr (transferring.stamped nothing r mem (by rw [named, Bool.true_or]))
  · refine .select ?_
    cases found : chosen (server.takes .accounts) .accounts (fun r : Account => same r.accountName q) m with
    | some account =>
      refine .after Reads.pure fun credited ran => creditLinks fun transferring => ?_
      obtain ⟨rfl,_⟩ := pureOk.mp ran
      obtain ⟨stored,named⟩ := chosenSome found
      exact ⟨account,stored,rfl,rfl,fun something =>
        transferring.stamped something account stored (by rw [named, Bool.or_true])⟩
    | none =>
      refine .bind (fun transferring v s' ran => ?_) fun id m' created _ => ?_
      · have linking := accountLinks transferring.linking v s' ran
        obtain ⟨_,rfl,_⟩ := insertIntoOk.mp ran
        refine ⟨linking,fun something r mem named => ?_⟩
        rw [Database.appendSame] at mem
        rcases List.mem_append.mp mem with old | new
        · exact transferring.stamped something r old named
        · rw [List.mem_singleton.mp new]
          exact given
      · refine .after Reads.pure fun credited ran => creditLinks fun _ => ?_
        obtain ⟨rfl,_⟩ := pureOk.mp ran
        obtain ⟨rfl,rfl,_⟩ := insertIntoOk.mp created
        refine ⟨⟨(m .accounts).next,b,cut 12 q,some "",some 0,t⟩,?_,rfl,rfl,fun _ => given⟩
        rw [Database.appendSame]
        exact List.mem_append_right _ List.mem_cons_self

end Transfer
theorem recordedLinks {t : TableName} {row : Int → Row t} (entered : t.entered = true) (number : ∀ k, key t (row k) = k) :
    Keeps (Linking head) s (do
      let pkid ← insertInto t row
      toInt (some pkid)) :=
  .bind (.insert entered number) fun _ _ _ _ => .reads toIntReads

theorem restampedLinks (a : Audited) {p : Row a.table → Bool} {assign : Row a.table → Row a.table} {b n : Option Int}
    (given : b = head) (numbers : ∀ r, key a.table (assign r) = key a.table r)
    (stamps : ∀ r, fkBlockNumber a.table (assign r) = b) :
    Keeps (Linking head) s (do
      update a.table p assign
      toInt n) :=
  .bind (Linking.update a numbers fun _ _ r _ => (stamps r).trans given) fun _ _ _ _ => .reads toIntReads

theorem callLinks {c : Call} (ordinary : c.ordinary = true) (atHead : ∀ b, c.blockArgument = some b → b = head)
    (kept : ∀ b ∈ c.keptBlocks server s, b = head) : Keeps (Linking head) s (c.run server) := by
  cases c with
  | insBlocks => cases ordinary
  | rbFork => cases ordinary
  | insUpdAccounts b n k t u =>
    refine .select ?_
    cases chosen (server.takes .accounts) .accounts (fun r : Account => same r.accountName n) s with
    | none => exact .ite (fun _ => recordedLinks rfl fun _ => rfl) fun _ => recordedLinks rfl fun _ => rfl
    | some account =>
      refine .ite (fun _ => ?_) fun _ => .reads toIntReads
      exact restampedLinks .accounts (atHead b rfl) (fun _ => rfl) fun _ => rfl
  | insTransactions => exact insTransactionsLinks
  | insTraces => exact insTracesLinks
  | insAccountActivities => exact .guarded (.select (.after Reads.oneOf fun _ _ => recordedLinks rfl fun _ => rfl))
  | insAccountActivitiesHandle => exact .guarded (.select (.after Reads.oneOf fun _ _ => recordedLinks rfl fun _ => rfl))
  | insTokenTransfers x b p q a k w t =>
    intro linking v s' ran
    refine (insTokenTransfersLinks (atHead b rfl) ⟨linking,fun something r mem named => ?_⟩ v s' ran).linking
    refine kept _ ?_
    rw [Call.keptBlocks, if_neg something]
    exact List.mem_map_of_mem (List.mem_filter.mpr ⟨mem,named⟩)
  | insTokenStakings => exact .guarded (.select (recordedLinks rfl fun _ => rfl))
  | getAccountPubKeyAndId =>
    exact .reads (Reads.bind (Reads.bind (fun _ _ ran => (getOk.mp ran).2) fun _ => Reads.pure) fun _ => Reads.pure)
  | insDomains => exact .guarded (.select (.after Reads.oneOf fun _ _ => recordedLinks rfl fun _ => rfl))
  | insDomainActivities => exact .guarded (.select (.after Reads.oneOf fun _ _ => recordedLinks rfl fun _ => rfl))
  | updDomainExp => exact updDomainExpLinks kept
  | updDomainIsPublic => exact updDomainIsPublicLinks kept
  | updDomainOwner => exact updDomainOwnerLinks kept
  | updDomainBurnt => exact updDomainBurntLinks kept
  | insUpdHandles b d o h k i t w =>
    refine .guarded (.select (.select (.select ?_)))
    cases chosen (server.takes .handles) .handles (fun r : Handle => same r.handle h) s with
    | none => exact .after Reads.oneOf fun _ _ => recordedLinks rfl fun _ => rfl
    | some row =>
      exact .after Reads.oneOf fun _ _ => restampedLinks .handles (atHead b rfl) (fun _ => rfl) fun _ => rfl
  | updHandlesRenewBundles => exact .throw
  | updHandlesAddBundles => exact .throw
  | updHandlesXferOwner b h o k i =>
    exact .select (.select (.after toIntReads fun _ _ => restampedLinks .handles (atHead b rfl) (fun _ => rfl) fun _ => rfl))
  | updHandlesEncryptKey b h k =>
    refine .select (.ite (fun _ => ?_) fun _ => .reads toIntReads)
    exact restampedLinks .handles (atHead b rfl) (fun _ => rfl) fun _ => rfl
  | updHandlesSetEncryptKey b h k => exact .select (restampedLinks .handles (atHead b rfl) (fun _ => rfl) fun _ => rfl)
  | updHandlesStatus b h w =>
    refine .select ?_
    cases chosen (server.takes .handles) .handles (fun r : Handle => same r.handle h) s with
    | none => exact .reads toIntReads
    | some row =>
      exact .after Reads.oneOf fun _ _ => restampedLinks .handles (atHead b rfl) (fun _ => rfl) fun _ => rfl
  | updHandleBurnt b h =>
    refine .select ?_
    cases chosen (server.takes .handles) .handles (fun r : Handle => same r.handle h) s with
    | none => exact .pure
    | some row => exact .bind (Linking.update .handles (fun _ => rfl) fun _ _ _ _ => atHead b rfl) fun _ _ _ _ => .pure
  | insHandleActivities => exact .guarded (.select (.after Reads.oneOf fun _ _ => recordedLinks rfl fun _ => rfl))
  | insUpdPubAddresses b h c k a =>
    refine .guarded (.after handleIdReads fun id _ => .select ?_)
    cases chosen (server.takes .pubAddresses) .pubAddresses (fun r : PubAddress =>
        same r.fkHandleId id && same r.chainCode c && same r.tokenCode k) s with
    | none => exact recordedLinks rfl fun _ => rfl
    | some row => exact restampedLinks .pubAddresses (atHead b rfl) (fun _ => rfl) fun _ => rfl
  | delPubAddress => exact .after handleIdReads fun _ _ => .bind (.delete .pubAddresses rfl) fun _ _ _ _ => .pure
  | delPubAddresses => exact .after handleIdReads fun _ _ => .bind (.delete .pubAddresses rfl) fun _ _ _ _ => .pure
  | clearPubAddresses => exact .after handleIdReads fun _ _ => .bind (.delete .pubAddresses rfl) fun _ _ _ _ => .pure
  | existsPubAddress => exact .after handleIdReads fun _ _ => .throw
  | insUpdNftSignatures b h c a i u x m =>
    refine .guarded (.after handleIdReads fun id _ => .select ?_)
    cases chosen (server.takes .nftSignatures) .nftSignatures (fun r : NftSignature =>
        same r.fkHandleId id && same r.chainCode c && same r.contractAddress a && same r.tokenId i) s with
    | none => exact recordedLinks rfl fun _ => rfl
    | some row => exact restampedLinks .nftSignatures (atHead b rfl) (fun _ => rfl) fun _ => rfl
  | delNftSignature => exact .after handleIdReads fun _ _ => .bind (.delete .nftSignatures rfl) fun _ _ _ _ => .pure
  | delNftSignatures => exact .after handleIdReads fun _ _ => .bind (.delete .nftSignatures rfl) fun _ _ _ _ => .pure
  | insFioRequests =>
    exact .guarded (.select (.select (.after Reads.oneOf fun _ _ => recordedLinks rfl fun _ => rfl)))
  | updFioRequestsStatus => exact updFioRequestsStatusLinks kept
  | insFioDatas =>
    exact .guarded (.select (.select (.select (.select (.after Reads.oneOf fun _ _ => recordedLinks rfl fun _ => rfl)))))
  | insHandleActivitiesFioRequest =>
    exact .guarded (.select (.after Reads.oneOf fun _ _ => recordedLinks rfl fun _ => rfl))

end Calls

end FioRelic

import FioRelic.Footprints
import FioRelic.ProcedureTwins
import FioRelic.Relational.Locality

/-! Independence: which tables a stored procedure touches, by its SELECTs, its writes, its
triggers and what its rows refer to. Calls neither of which writes what the other touches
may come in any order. -/
namespace FioRelic
open Relational

namespace Call

def touched : Call → List TableName
  | insBlocks .. => [.blocks]
  | insUpdAccounts .. => [.accounts,.accountsAudit,.blocks]
  | insTransactions .. => [.accounts,.transactions,.blocks]
  | insTraces .. => [.accounts,.traces,.transactions,.blocks]
  | insAccountActivities .. => [.accountActivities,.accounts,.transactions,.blocks]
  | insAccountActivitiesHandle .. => [.accountActivities,.accounts,.handles,.transactions,.blocks]
  | insTokenTransfers .. => [.accounts,.accountsAudit,.tokenTransfers,.transactions,.blocks]
  | insTokenStakings .. => [.tokenStakings,.accounts,.transactions,.blocks]
  | getAccountPubKeyAndId _ => [.accounts]
  | insDomains .. => [.domains,.accounts,.blocks]
  | insDomainActivities .. => [.domainActivities,.domains,.transactions,.blocks]
  | updDomainExp .. | updDomainIsPublic .. | updDomainOwner .. | updDomainBurnt .. =>
    [.domains,.domainsAudit,.accounts,.blocks]
  | insUpdHandles .. | updHandlesXferOwner .. | updHandlesEncryptKey .. | updHandlesSetEncryptKey ..
  | updHandlesStatus .. | updHandleBurnt .. => [.handles,.handlesAudit,.domains,.accounts,.blocks]
  | insHandleActivities .. => [.handleActivities,.handles,.transactions,.blocks]
  | insHandleActivitiesFioRequest .. => [.handleActivities,.handles,.fioRequests,.transactions,.blocks]
  | insUpdPubAddresses .. | delPubAddress .. | delPubAddresses .. | clearPubAddresses .. =>
    [.pubAddresses,.pubAddressesAudit,.handles,.blocks]
  | insUpdNftSignatures .. | delNftSignature .. | delNftSignatures .. =>
    [.nftSignatures,.nftSignaturesAudit,.handles,.blocks]
  | existsPubAddress .. => [.handles]
  | insFioRequests .. => [.fioRequests,.handles,.transactions,.blocks]
  | updFioRequestsStatus .. => [.fioRequests,.fioRequestsAudit,.handles,.transactions,.blocks]
  | insFioDatas .. => [.fioDatas,.handles,.accounts,.transactions,.blocks]
  | rbFork _ => tables
  | updHandlesRenewBundles .. | updHandlesAddBundles .. => []

theorem footprintTouched (c : Call) : ∀ t ∈ c.footprint, t ∈ c.touched := by
  cases c <;> simp [footprint, touched]

def Independent (c c' : Call) : Prop := (∀ t ∈ c.footprint, t ∉ c'.touched) ∧ ∀ t ∈ c'.footprint, t ∉ c.touched

instance (c c' : Call) : Decidable (c.Independent c') := inferInstanceAs (Decidable (_ ∧ _))

theorem Independent.symm {c c' : Call} (apart : c.Independent c') : c'.Independent c := ⟨apart.2,apart.1⟩

end Call

namespace Relational.Local
variable {α β : Type} {ts : List TableName} {server : Server}

theorem toInt {n : Option Int} : Local ts (toInt n) :=
  blind fun _ _ _ ran => ⟨(toIntOk.mp ran).2.1,fun _ => toIntOk.mpr ⟨(toIntOk.mp ran).1,rfl,(toIntOk.mp ran).2.2⟩⟩

theorem toBigint {n : Option Int} : Local ts (toBigint n) :=
  blind fun _ _ _ ran =>
    ⟨(toBigintOk.mp ran).2.1,fun _ => toBigintOk.mpr ⟨(toBigintOk.mp ran).1,rfl,(toBigintOk.mp ran).2.2⟩⟩

theorem lookup {t : TableName} (listed : t ∈ ts) {p : Row t → Bool} : Local ts (FioRelic.select server t p) :=
  select listed

theorem handleId (listed : TableName.handles ∈ ts) {name : Option String} : Local ts (FioRelic.handleId server name) :=
  bind (lookup listed) fun _ => pure

theorem maxBlock (listed : TableName.blocks ∈ ts) : Local ts maxBlock := by
  refine read fun s m same => ?_
  unfold DB.head DB.blockNumbers
  rw [same .blocks listed]

theorem stampOf (listed : TableName.blocks ∈ ts) {number : Option Int} : Local ts (stampOf number) := by
  refine read fun s m same => ?_
  unfold DB.stampOf
  rw [same .blocks listed]

theorem castTimestamp {text : Option String} : Local ts (castTimestamp server text) := by
  unfold FioRelic.castTimestamp
  cases text with
  | none => exact pure
  | some t =>
    cases stamps : server.timestamp t with
    | none =>
      simp only [stamps]
      exact throw
    | some stamp =>
      simp only [stamps]
      exact pure

end Relational.Local

structure Covers (ts : List TableName) (t : TableName) : Prop where
  listed : t ∈ ts
  parents : ∀ ref ∈ references t, ref.parent ∈ ts

instance (ts : List TableName) (t : TableName) : Decidable (Covers ts t) :=
  decidable_of_iff (t ∈ ts ∧ ∀ ref ∈ references t, ref.parent ∈ ts) ⟨fun h => ⟨h.1,h.2⟩,fun h => ⟨h.1,h.2⟩⟩

namespace Relational.Local
variable {ts : List TableName}

theorem insertCovered {t : TableName} (covers : Covers ts t) {row : Int → Row t} :
    Local ts (insertInto (S := relic) t row) := insert covers.listed covers.parents

theorem inserted {t : TableName} (covers : Covers ts t) {row : Int → Row t} :
    Local ts (do
      let pkid ← insertInto (S := relic) t row
      FioRelic.toInt (some pkid)) := bind (insertCovered covers) fun _ => toInt

theorem onUpdate (a : Audited) (covers : Covers ts a.log) (blocks : .blocks ∈ ts) (old new : Row a.table) :
    Local ts (onUpdate a.table old new) := by
  cases a with
  | pubAddresses => exact bind (stampOf blocks) fun _ => bind (insertCovered covers) fun _ => pure
  | nftSignatures => exact bind (stampOf blocks) fun _ => bind (insertCovered covers) fun _ => pure
  | _ =>
    exact bind (stampOf blocks) fun _ => bind (maxBlock blocks) fun _ => bind (insertCovered covers) fun _ => pure

theorem onDelete (a : Audited) (deletes : a.deletes = true) (covers : Covers ts a.log) (blocks : .blocks ∈ ts)
    (old : Row a.table) : Local ts (onDelete a.table old) := by
  cases a <;> try contradiction
  all_goals
    exact bind (stampOf blocks) fun _ => bind (maxBlock blocks) fun _ => bind (insertCovered covers) fun _ => pure

theorem update (a : Audited) (covers : Covers ts a.table ∧ Covers ts a.log ∧ .blocks ∈ ts) {p : Row a.table → Bool}
    {assign : Row a.table → Row a.table} (keyed : ∀ r, key a.table (assign r) = key a.table r) :
    Local ts (update a.table p assign) :=
  updateWhere covers.1.listed covers.1.parents keyed (onUpdate a covers.2.1 covers.2.2)

theorem delete (a : Audited) (deletes : a.deletes = true) (covers : Covers ts a.table ∧ Covers ts a.log ∧ .blocks ∈ ts)
    {p : Row a.table → Bool} : Local ts (delete a.table p) := by
  refine deleteWhere covers.1.listed covers.1.parents (fun u ref listed => ?_) (onDelete a deletes covers.2.1 covers.2.2)
  have free : ∀ u, ∀ ref ∈ references u, ref.parent ≠ .pubAddresses ∧ ref.parent ≠ .nftSignatures := by
    intro u
    cases u <;> decide
  cases a <;> try contradiction
  · exact (free u ref listed).1
  · exact (free u ref listed).2

end Relational.Local

section Ledger
variable {server : Server} {ts : List TableName}

theorem withActorLocal {β : Type} {b : Option Int} {name : Option String} {stamp : Option Timestamp}
    {rest : Option Int → Proc β} (covers : Covers ts .accounts) (later : ∀ id, Local ts (rest id)) :
    Local ts (withActor server b name stamp rest) := by
  refine .bind (.lookup covers.listed) fun actor => ?_
  cases actor with
  | some account => exact .bind .pure later
  | none =>
    refine .ite ?_ (.ite ?_ (.bind .pure later))
    all_goals exact .bind (.insertCovered covers) fun _ => .bind .pure later

theorem insUpdAccountsLocal {b : Option Int} {n k : Option String} {t : Option Timestamp} {u : Option Bool} :
    Local [.accounts,.accountsAudit,.blocks] (insUpdAccounts server b n k t u) := by
  refine .bind (.lookup (by decide)) fun found => ?_
  cases found with
  | none => exact .ite (.inserted (by decide)) (.inserted (by decide))
  | some account => exact .ite (.bind (.update .accounts (by decide) fun _ => rfl) fun _ => .toInt) .toInt

theorem insTransactionsLocal {b f : Option Int} {t : Option Timestamp} {x ac an a p q r w : Option String} :
    Local [.accounts,.transactions,.blocks] (insTransactions server b t x ac an a p f q r w) := by
  refine .guarded (.bind (.lookup (by decide)) fun found => ?_)
  cases found with
  | none =>
    refine .ite .raise (.bind (.insertCovered (by decide)) fun _ => ?_)
    exact withActorLocal (by decide) fun _ => .inserted (by decide)
  | some account => exact .bind .pure fun _ => withActorLocal (by decide) fun _ => .inserted (by decide)

theorem insTracesLocal {x b o : Option Int} {ac rc a q : Option String} {t : Option Timestamp} :
    Local [.accounts,.traces,.transactions,.blocks] (insTraces server x b ac rc o a q t) := by
  refine .guarded (.bind (.lookup (by decide)) fun found => ?_)
  cases found with
  | none =>
    refine .ite (.bind (.insertCovered (by decide)) fun _ => ?_) (.bind (.insertCovered (by decide)) fun _ => ?_)
    all_goals exact withActorLocal (by decide) fun _ => .inserted (by decide)
  | some account => exact .bind .pure fun _ => withActorLocal (by decide) fun _ => .inserted (by decide)

theorem insTokenTransfersLocal {x b a : Option Int} {p q k w : Option String} {t : Option Timestamp} :
    Local [.accounts,.accountsAudit,.tokenTransfers,.transactions,.blocks]
      (insTokenTransfers server x b p q a k w t) := by
  refine .guarded (.bind (.lookup (by decide)) fun payer => .bind .toBigint fun balance => .ite .raise ?_)
  refine .bind (.update .accounts (by decide) fun _ => rfl) fun _ => .bind (.lookup (by decide)) fun payee => ?_
  cases payee
  case' none => refine .bind (.insertCovered (by decide)) fun id => .bind .pure fun credited => ?_
  case' some account => refine .bind .pure fun credited => ?_
  all_goals
    exact .bind .toBigint fun _ => .ite .raise (.bind (.update .accounts (by decide) fun _ => rfl) fun _ =>
      .bind .oneOf fun _ => .inserted (by decide))

end Ledger

theorem callLocal {server : Server} (c : Call) (forward : c.isFork = false) : Local c.touched (c.run server) := by
  cases c with dsimp only [Call.touched]
  | insBlocks n =>
    refine .guarded (.bind .castTimestamp fun _ => ?_)
    cases n with
    | none => exact .throw
    | some number => exact .bind (.insertCovered (by decide)) fun _ => .pure
  | insUpdAccounts => exact insUpdAccountsLocal
  | insTransactions => exact insTransactionsLocal
  | insTraces => exact insTracesLocal
  | insAccountActivities | insAccountActivitiesHandle =>
    exact .guarded (.bind (.lookup (by decide)) fun _ => .bind .oneOf fun _ => .inserted (by decide))
  | insTokenTransfers => exact insTokenTransfersLocal
  | insTokenStakings => exact .guarded (.bind (.lookup (by decide)) fun _ => .inserted (by decide))
  | getAccountPubKeyAndId =>
    refine .bind (.read fun s m same => ?_) fun _ => .pure
    rw [same .accounts List.mem_cons_self]
  | insDomains => exact .guarded (.bind (.lookup (by decide)) fun _ => .bind .oneOf fun _ => .inserted (by decide))
  | insDomainActivities =>
    exact .guarded (.bind (.lookup (by decide)) fun _ => .bind .oneOf fun _ => .inserted (by decide))
  | updDomainExp | updDomainIsPublic =>
    exact .bind (.lookup (by decide)) fun _ => .bind (.update .domains (by decide) fun _ => rfl) fun _ => .toInt
  | updDomainOwner =>
    exact .bind (.lookup (by decide)) fun _ => .bind (.lookup (by decide)) fun _ =>
      .bind (.update .domains (by decide) fun _ => rfl) fun _ => .toInt
  | updDomainBurnt => exact .bind (.update .domains (by decide) fun _ => rfl) fun _ => .pure
  | insUpdHandles =>
    refine .guarded (.bind (.lookup (by decide)) fun _ => .bind (.lookup (by decide)) fun _ =>
      .bind (.lookup (by decide)) fun found => .bind .oneOf fun _ => ?_)
    cases found with
    | none => exact .inserted (by decide)
    | some row => exact .bind (.update .handles (by decide) fun _ => rfl) fun _ => .toInt
  | updHandlesRenewBundles | updHandlesAddBundles => exact .throw
  | updHandlesXferOwner =>
    exact .bind (.lookup (by decide)) fun _ => .bind (.lookup (by decide)) fun _ => .bind .toInt fun _ =>
      .bind (.update .handles (by decide) fun _ => rfl) fun _ => .toInt
  | updHandlesEncryptKey =>
    exact .bind (.lookup (by decide)) fun _ =>
      .ite (.bind (.update .handles (by decide) fun _ => rfl) fun _ => .toInt) .toInt
  | updHandlesSetEncryptKey =>
    exact .bind (.lookup (by decide)) fun _ => .bind (.update .handles (by decide) fun _ => rfl) fun _ => .toInt
  | updHandlesStatus =>
    refine .bind (.lookup (by decide)) fun found => ?_
    cases found with
    | none => exact .toInt
    | some row => exact .bind .oneOf fun _ => .bind (.update .handles (by decide) fun _ => rfl) fun _ => .toInt
  | updHandleBurnt =>
    refine .bind (.lookup (by decide)) fun found => ?_
    cases found with
    | none => exact .pure
    | some row => exact .bind (.update .handles (by decide) fun _ => rfl) fun _ => .pure
  | insHandleActivities =>
    exact .guarded (.bind (.lookup (by decide)) fun _ => .bind .oneOf fun _ => .inserted (by decide))
  | insUpdPubAddresses =>
    refine .guarded (.bind (.handleId (by decide)) fun _ => .bind (.lookup (by decide)) fun found => ?_)
    cases found with
    | none => exact .inserted (by decide)
    | some row => exact .bind (.update .pubAddresses (by decide) fun _ => rfl) fun _ => .toInt
  | delPubAddress | delPubAddresses | clearPubAddresses =>
    exact .bind (.handleId (by decide)) fun _ => .bind (.delete .pubAddresses rfl (by decide)) fun _ => .pure
  | existsPubAddress => exact .bind (.handleId (by decide)) fun _ => .throw
  | insUpdNftSignatures =>
    refine .guarded (.bind (.handleId (by decide)) fun _ => .bind (.lookup (by decide)) fun found => ?_)
    cases found with
    | none => exact .inserted (by decide)
    | some row => exact .bind (.update .nftSignatures (by decide) fun _ => rfl) fun _ => .toInt
  | delNftSignature | delNftSignatures =>
    exact .bind (.handleId (by decide)) fun _ => .bind (.delete .nftSignatures rfl (by decide)) fun _ => .pure
  | insFioRequests =>
    exact .guarded (.bind (.lookup (by decide)) fun _ => .bind (.lookup (by decide)) fun _ => .bind .oneOf fun _ =>
      .inserted (by decide))
  | updFioRequestsStatus =>
    refine .bind (.lookup (by decide)) fun found => ?_
    cases found with
    | none => exact .pure
    | some row => exact .bind .oneOf fun _ => .bind (.update .fioRequests (by decide) fun _ => rfl) fun _ => .toInt
  | insFioDatas =>
    exact .guarded (.bind (.lookup (by decide)) fun _ => .bind (.lookup (by decide)) fun _ =>
      .bind (.lookup (by decide)) fun _ => .bind (.lookup (by decide)) fun _ => .bind .oneOf fun _ =>
        .inserted (by decide))
  | insHandleActivitiesFioRequest =>
    exact .guarded (.bind (.lookup (by decide)) fun _ => .bind .oneOf fun _ => .inserted (by decide))
  | rbFork => cases forward

abbrev Event.leaves (e : Event) : DB → DB := after e.drawn (e.call.run e.server)

theorem untouchedAfter {e : Event} (untouched : ∀ t, t ∉ e.call.touched) (s : DB) : e.leaves s = s := by
  have nothing : e.drawn = fun _ => 0 := funext fun t => if_neg fun mem => untouched t (e.call.footprintTouched t mem)
  unfold Event.leaves after
  rw [nothing]
  obtain ⟨server,call,lost⟩ := e
  cases call with
  | updHandlesRenewBundles => exact Database.skipNothing s
  | updHandlesAddBundles => exact Database.skipNothing s
  | rbFork => exact absurd (relic.complete .blocks) (untouched .blocks)
  | _ => exact absurd List.mem_cons_self (untouched _)

theorem callsExchange {e e' : Event} (apart : e.call.Independent e'.call) {s : DB} (valid : s.Valid) :
    e'.leaves (e.leaves s) = e.leaves (e'.leaves s) := by
  have alone : ∀ {c c' : Call}, c.Independent c' → c.isFork = true → ∀ t, t ∉ c'.touched := by
    intro c c' apart fork t
    cases c <;> cases fork
    exact apart.1 t (relic.complete t)
  by_cases fork : e.call.isFork = true
  · rw [untouchedAfter (alone apart fork), untouchedAfter (alone apart fork)]
  · by_cases fork' : e'.call.isFork = true
    · rw [untouchedAfter (alone apart.symm fork'), untouchedAfter (alone apart.symm fork')]
    · exact exchange (callFrames e.call) (callFrames e'.call) (callLocal e.call (Bool.eq_false_iff.mpr fork))
        (callLocal e'.call (Bool.eq_false_iff.mpr fork')) e.call.footprintTouched e'.call.footprintTouched apart.1 apart.2
        (fun _ outside => if_neg outside) (fun _ outside => if_neg outside) valid

theorem stepAfter (n : Node) (e : Event) : (n.step e).db = e.leaves n.db := by
  unfold Event.leaves after
  cases ran : e.call.run e.server n.db with
  | ok result => exact stepRan ran
  | error raised => rw [stepRaised ran]

theorem runAfter (n : Node) (calls : List Event) : (runFrom n calls).db = calls.foldl (fun s e => e.leaves s) n.db := by
  induction calls generalizing n with
  | nil => rfl
  | cons e rest ih =>
    change (runFrom (n.step e) rest).db = _
    rw [ih, stepAfter]
    rfl

theorem anyOrder (history : List Event) {late late' : List Event} (perm : late.Perm late')
    (independent : late.Pairwise fun e e' => e.call.Independent e'.call) :
    (run (history ++ late)).db = (run (history ++ late')).db := by
  induction perm generalizing history with
  | nil => rfl
  | cons e _ ih =>
    have later := ih (history ++ [e]) (List.pairwise_cons.mp independent).2
    rwa [List.append_assoc, List.append_assoc] at later
  | swap e e' rest =>
    have apart := (List.pairwise_cons.mp independent).1 e List.mem_cons_self
    have swapped := callsExchange apart (kemptRun history).valid
    have before : ∀ calls, (run (history ++ calls)).db = (runFrom (run history) calls).db := fun calls => by
      rw [run, run, runFrom, runFrom, runFrom, List.foldl_append]
    rw [before, before, runAfter, runAfter]
    change rest.foldl _ (Event.leaves _ (Event.leaves _ _)) = rest.foldl _ (Event.leaves _ (Event.leaves _ _))
    rw [swapped]
  | trans first _ ih ih' =>
    have symmetric : ∀ {e e' : Event}, e.call.Independent e'.call → e'.call.Independent e.call := fun apart => apart.symm
    exact (ih history independent).trans (ih' history ((first.pairwise_iff symmetric).mp independent))

def aliceBusy : List Event := events
  [.insUpdPubAddresses (some 1) (some "alice@fio") (some "BTC") (some "BTC") (some "1A"),
    .insUpdNftSignatures (some 1) (some "alice@fio") (some "ETH") (some "0xc") (some "7") none none none,
    .insTokenTransfers none (some 1) (some "alice") (some "bob") (some 0) (some "transfer") none none]

theorem anyOrderAlice : (run (handedOver.take 3 ++ aliceBusy)).db = (run (handedOver.take 3 ++ aliceBusy.reverse)).db :=
  anyOrder _ aliceBusy.reverse_perm.symm (by decide)

end FioRelic

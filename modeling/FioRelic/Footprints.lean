import FioRelic.Undo
import FioRelic.Relational.Frames

/-! Footprints: the tables that each stored procedure may write, its triggers included. -/
namespace FioRelic
open Relational

namespace Relational.Frames
variable {α β : Type} {ts : List TableName} {server : Server}

theorem toInt {n : Option Int} : Frames ts (toInt n) := Frames.reads fun _ _ _ ran => (toIntOk.mp ran).2.1

theorem toBigint {n : Option Int} : Frames ts (toBigint n) := Frames.reads fun _ _ _ ran => (toBigintOk.mp ran).2.1

theorem lookup {t : TableName} {p : Row t → Bool} : Frames ts (FioRelic.select server t p) := Frames.select

theorem handleId {name : Option String} : Frames ts (FioRelic.handleId server name) := .bind lookup fun _ => .pure

theorem inserted {t : TableName} (listed : t ∈ ts) {row : Int → Row t} :
    Frames ts (do
      let pkid ← insertInto (S := relic) t row
      FioRelic.toInt (some pkid)) := .bind (.insert listed) fun _ => toInt

theorem update (a : Audited) (listed : a.table ∈ ts ∧ a.log ∈ ts) {p : Row a.table → Bool}
    {assign : Row a.table → Row a.table} : Frames ts (update a.table p assign) := by
  intro s v s' ran t outside
  obtain ⟨entries,_,rfl,_⟩ := updateWrites ran
  have table : t ≠ a.table := fun same => outside (same ▸ listed.1)
  have log : t ≠ a.log := fun same => outside (same ▸ listed.2)
  rw [Database.appendOther _ log, Database.withRowsOther _ table]

theorem delete (a : Audited) (deletes : a.deletes = true) (listed : a.table ∈ ts ∧ a.log ∈ ts) {p : Row a.table → Bool} :
    Frames ts (delete a.table p) := by
  intro s v s' ran t outside
  obtain ⟨entries,_,rfl,_⟩ := deleteWrites deletes ran
  have table : t ≠ a.table := fun same => outside (same ▸ listed.1)
  have log : t ≠ a.log := fun same => outside (same ▸ listed.2)
  rw [Database.appendOther _ log, Database.withRowsOther _ table]

theorem logged (a : Audited) : a.table ∈ [a.table,a.log] ∧ a.log ∈ [a.table,a.log] :=
  ⟨List.mem_cons_self,List.mem_cons_of_mem _ List.mem_cons_self⟩

end Relational.Frames

section Ledger
variable {server : Server} {ts : List TableName}

theorem withActorFrames {β : Type} {b : Option Int} {name : Option String} {stamp : Option Timestamp}
    {rest : Option Int → Proc β} (listed : TableName.accounts ∈ ts) (later : ∀ id, Frames ts (rest id)) :
    Frames ts (withActor server b name stamp rest) := by
  refine .bind .lookup fun actor => ?_
  cases actor with
  | some account => exact .bind .pure later
  | none =>
    refine .ite ?_ (.ite ?_ (.bind .pure later))
    all_goals exact .bind (.insert listed) fun _ => .bind .pure later

theorem insUpdAccountsFrames {b : Option Int} {n k : Option String} {t : Option Timestamp} {u : Option Bool} :
    Frames [.accounts,.accountsAudit] (insUpdAccounts server b n k t u) := by
  refine .bind .lookup fun found => ?_
  cases found with
  | none => exact .ite (.inserted (by decide)) (.inserted (by decide))
  | some account => exact .ite (.bind (.update .accounts (by decide)) fun _ => .toInt) .toInt

theorem insTransactionsFrames {b f : Option Int} {t : Option Timestamp} {x ac an a p q r w : Option String} :
    Frames [.accounts,.transactions] (insTransactions server b t x ac an a p f q r w) := by
  refine .guarded (.bind .lookup fun found => ?_)
  cases found with
  | none =>
    refine .ite .raise (.bind (.insert (by decide)) fun _ => ?_)
    exact withActorFrames (by decide) fun _ => .inserted (by decide)
  | some account => exact .bind .pure fun _ => withActorFrames (by decide) fun _ => .inserted (by decide)

theorem insTracesFrames {x b o : Option Int} {ac rc a q : Option String} {t : Option Timestamp} :
    Frames [.accounts,.traces] (insTraces server x b ac rc o a q t) := by
  refine .guarded (.bind .lookup fun found => ?_)
  cases found with
  | none =>
    refine .ite (.bind (.insert (by decide)) fun _ => ?_) (.bind (.insert (by decide)) fun _ => ?_)
    all_goals exact withActorFrames (by decide) fun _ => .inserted (by decide)
  | some account => exact .bind .pure fun _ => withActorFrames (by decide) fun _ => .inserted (by decide)

theorem insTokenTransfersFrames {x b a : Option Int} {p q k w : Option String} {t : Option Timestamp} :
    Frames [.accounts,.accountsAudit,.tokenTransfers] (insTokenTransfers server x b p q a k w t) := by
  refine .guarded (.bind .lookup fun payer => .bind .toBigint fun balance => .ite .raise ?_)
  refine .bind (.update .accounts (by decide)) fun _ => .bind .lookup fun payee => ?_
  cases payee
  case' none => refine .bind (.insert (by decide)) fun id => .bind .pure fun credited => ?_
  case' some account => refine .bind .pure fun credited => ?_
  all_goals
    exact .bind .toBigint fun _ => .ite .raise
      (.bind (.update .accounts (by decide)) fun _ => .bind .oneOf fun _ => .inserted (by decide))

end Ledger

theorem callFrames {server : Server} (c : Call) : Frames c.footprint (c.run server) := by
  cases c with
  | insBlocks n =>
    refine .guarded (.bind (.reads fun _ _ _ ran => castTimestampSame ran) fun _ => ?_)
    cases n with
    | none => exact .throw
    | some number => exact .bind (.insert List.mem_cons_self) fun _ => .pure
  | insUpdAccounts => exact insUpdAccountsFrames
  | insTransactions => exact insTransactionsFrames
  | insTraces => exact insTracesFrames
  | insAccountActivities | insAccountActivitiesHandle =>
    exact .guarded (.bind .lookup fun _ => .bind .oneOf fun _ => .inserted List.mem_cons_self)
  | insTokenTransfers => exact insTokenTransfersFrames
  | insTokenStakings => exact .guarded (.bind .lookup fun _ => .inserted List.mem_cons_self)
  | getAccountPubKeyAndId => exact .bind (.bind (.reads fun _ _ _ ran => by cases ran; rfl) fun _ => .pure) fun _ => .pure
  | insDomains => exact .guarded (.bind .lookup fun _ => .bind .oneOf fun _ => .inserted List.mem_cons_self)
  | insDomainActivities => exact .guarded (.bind .lookup fun _ => .bind .oneOf fun _ => .inserted List.mem_cons_self)
  | updDomainExp | updDomainIsPublic =>
    exact .bind .lookup fun _ => .bind (.update .domains (Frames.logged .domains)) fun _ => .toInt
  | updDomainOwner =>
    exact .bind .lookup fun _ => .bind .lookup fun _ => .bind (.update .domains (Frames.logged .domains)) fun _ => .toInt
  | updDomainBurnt => exact .bind (.update .domains (Frames.logged .domains)) fun _ => .pure
  | insUpdHandles =>
    refine .guarded (.bind .lookup fun _ => .bind .lookup fun _ => .bind .lookup fun found => .bind .oneOf fun _ => ?_)
    cases found with
    | none => exact .inserted List.mem_cons_self
    | some row => exact .bind (.update .handles (Frames.logged .handles)) fun _ => .toInt
  | updHandlesRenewBundles => exact .throw
  | updHandlesAddBundles => exact .throw
  | updHandlesXferOwner =>
    exact .bind .lookup fun _ => .bind .lookup fun _ => .bind .toInt fun _ =>
      .bind (.update .handles (Frames.logged .handles)) fun _ => .toInt
  | updHandlesEncryptKey =>
    exact .bind .lookup fun _ => .ite (.bind (.update .handles (Frames.logged .handles)) fun _ => .toInt) .toInt
  | updHandlesSetEncryptKey =>
    exact .bind .lookup fun _ => .bind (.update .handles (Frames.logged .handles)) fun _ => .toInt
  | updHandlesStatus =>
    refine .bind .lookup fun found => ?_
    cases found with
    | none => exact .toInt
    | some row => exact .bind .oneOf fun _ => .bind (.update .handles (Frames.logged .handles)) fun _ => .toInt
  | updHandleBurnt =>
    refine .bind .lookup fun found => ?_
    cases found with
    | none => exact .pure
    | some row => exact .bind (.update .handles (Frames.logged .handles)) fun _ => .pure
  | insHandleActivities => exact .guarded (.bind .lookup fun _ => .bind .oneOf fun _ => .inserted List.mem_cons_self)
  | insUpdPubAddresses =>
    refine .guarded (.bind .handleId fun _ => .bind .lookup fun found => ?_)
    cases found with
    | none => exact .inserted List.mem_cons_self
    | some row => exact .bind (.update .pubAddresses (Frames.logged .pubAddresses)) fun _ => .toInt
  | delPubAddress | delPubAddresses | clearPubAddresses =>
    exact .bind .handleId fun _ => .bind (.delete .pubAddresses rfl (Frames.logged .pubAddresses)) fun _ => .pure
  | existsPubAddress => exact .bind .handleId fun _ => .throw
  | insUpdNftSignatures =>
    refine .guarded (.bind .handleId fun _ => .bind .lookup fun found => ?_)
    cases found with
    | none => exact .inserted List.mem_cons_self
    | some row => exact .bind (.update .nftSignatures (Frames.logged .nftSignatures)) fun _ => .toInt
  | delNftSignature | delNftSignatures =>
    exact .bind .handleId fun _ => .bind (.delete .nftSignatures rfl (Frames.logged .nftSignatures)) fun _ => .pure
  | insFioRequests =>
    exact .guarded (.bind .lookup fun _ => .bind .lookup fun _ => .bind .oneOf fun _ => .inserted List.mem_cons_self)
  | updFioRequestsStatus =>
    refine .bind .lookup fun found => ?_
    cases found with
    | none => exact .pure
    | some row => exact .bind .oneOf fun _ => .bind (.update .fioRequests (Frames.logged .fioRequests)) fun _ => .toInt
  | insFioDatas =>
    exact .guarded (.bind .lookup fun _ => .bind .lookup fun _ => .bind .lookup fun _ => .bind .lookup fun _ =>
      .bind .oneOf fun _ => .inserted List.mem_cons_self)
  | insHandleActivitiesFioRequest =>
    exact .guarded (.bind .lookup fun _ => .bind .oneOf fun _ => .inserted List.mem_cons_self)
  | rbFork => exact fun _ _ _ _ t outside => absurd (relic.complete t) outside

theorem runFrames (early : List Event) {late : List Event} {t : TableName}
    (outside : ∀ e ∈ late, t ∉ e.call.footprint) : (run (early ++ late)).db t = (run early).db t := by
  induction late using List.reverseRecOn with
  | nil => rw [List.append_nil]
  | append_singleton calls e ih =>
    have before := ih fun e' mem => outside e' (List.mem_append_left _ mem)
    have last := outside e (List.mem_append_right _ (List.mem_singleton.mpr rfl))
    rw [← List.append_assoc, runLast]
    cases ran : e.call.run e.server (run (early ++ calls)).db with
    | error raised =>
      have nothing : e.drawn t = 0 := if_neg last
      rw [stepRaised ran, ← before]
      change (⟨_,_ + (e.drawn t : Int)⟩ : Table (Row t)) = _
      rw [nothing]
      exact congrArg (Table.mk _) (Int.add_zero _)
    | ok result =>
      obtain ⟨v,s'⟩ := result
      rw [stepRan ran]
      exact (callFrames e.call _ v s' ran t last).trans before

def handedOver : List Event := events
  [.insBlocks (some 1) none (some "b1") none none,
    .insUpdAccounts (some 1) (some "alice") (some "k1") none none,
    .insUpdHandles (some 1) none (some "alice") (some "alice@fio") (some "k1") (some false) none (some "active"),
    .updHandlesXferOwner (some 1) (some "alice@fio") (some "bob") (some "k2") (some true),
    .updHandleBurnt (some 1) (some "alice@fio")]

theorem runFramesHandedOver : (run (handedOver.take 2 ++ handedOver.drop 2)).db .accounts =
    (run (handedOver.take 2)).db .accounts := runFrames _ (by decide)

end FioRelic

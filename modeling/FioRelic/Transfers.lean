import Mathlib
import FioRelic.Restore

/-! A token transfer, statement by statement: the payer's balance is written, the payee
looked up and perhaps created, its balance written, and the transfer recorded. -/
namespace FioRelic
open Relational Versioning

def money (r : Account) : Int × Option String × Option Int := (r.pkAccountId,r.accountName,r.fioBalanceSuf)

theorem moneyAlike {rows rows' : List Account} (same : rows'.map money = rows.map money) {r : Account} (mem : r ∈ rows') :
    ∃ old ∈ rows, r.pkAccountId = old.pkAccountId ∧ r.accountName = old.accountName ∧
      r.fioBalanceSuf = old.fioBalanceSuf := by
  have listed : money r ∈ rows.map money := same ▸ List.mem_map_of_mem mem
  obtain ⟨old,stored,alike⟩ := List.mem_map.mp listed
  simp only [money, Prod.mk.injEq] at alike
  exact ⟨old,stored,alike.1.symm,alike.2.1.symm,alike.2.2.symm⟩

section Quiet
variable {c : Call} {s s' : DB}

theorem quietAccounts (quiet : c.transfers = false) (h : Change c s s') :
    (s' .accounts).rows.map money = (s .accounts).rows.map money ∨
      ∃ r : Account, (s' .accounts).rows = (s .accounts).rows ++ [r] ∧ r.pkAccountId = (s .accounts).next ∧
        (∀ r' ∈ (s .accounts).rows, same r'.accountName r.accountName = false) ∧
        r.fioBalanceSuf = openingBalance r.accountName := by
  cases h with
  | insert t row number stamped inserted valid =>
    by_cases own : TableName.accounts = t
    · subst own
      exact Or.inr ⟨row,by rw [Database.appendSame],number,inserted.1,inserted.2 quiet⟩
    · exact Or.inl (by rw [Database.appendOther _ own])
  | update a p assign entries rewritten logged committed valid =>
    refine Or.inl ?_
    by_cases own : Audited.accounts = a
    · subst own
      rw [Database.appendOther _ (by decide), Database.withRowsSame, List.map_map]
      refine List.map_congr_left fun r mem => ?_
      simp only [Function.comp, assigned]
      cases hit : p r with
      | false => rfl
      | true =>
        obtain ⟨number,_,name,balance⟩ := rewritten r mem hit
        have number' : (assign r).pkAccountId = r.pkAccountId := number
        simp only [money, if_true, number', name, balance quiet]
    · rw [Database.appendOther _ (Audited.accounts.tableLog a), Database.withRowsOther _ (Audited.tableInjective own)]
  | delete a deletes p entries logged committed valid =>
    have own : Audited.accounts ≠ a := fun same => by
      subst same
      cases deletes
    refine Or.inl ?_
    rw [Database.appendOther _ (Audited.accounts.tableLog a), Database.withRowsOther _ (Audited.tableInjective own)]

theorem quietTransfers (quiet : c.transfers = false) (h : Change c s s') :
    (s' .tokenTransfers).rows = (s .tokenTransfers).rows := by
  have plain : TableName.tokenTransfers.plain = true := rfl
  rcases changePlain h plain with same | ⟨_,_,_,inserted⟩
  · exact same
  · have transfers : c.transfers = true := inserted
    rw [quiet] at transfers
    cases transfers

end Quiet

def withBalance (id balance : Option Int) (r : Account) : Account :=
  if same (some r.pkAccountId) id then { r with fioBalanceSuf := balance } else r

structure Rebalanced (c : Call) (id balance : Option Int) (s s' : DB) : Prop where
  rows : (s' .accounts).rows = (s .accounts).rows.map (withBalance id balance)
  others : ∀ t, t ≠ .accounts → t ≠ .accountsAudit → s' t = s t
  next : (s' .accounts).next = (s .accounts).next
  change : Change c s s'

structure Steps where
  payer : Option Account
  payerbalance : Option Int
  debited : DB
  payee : Account
  opened : DB
  payeebalance : Option Int
  credited : DB
  row : TokenTransfer

inductive Opened (server : Server) (c : Call) (name : Option String) (s : DB) : Account → DB → Prop where
  | found (payee : Account) (mem : payee ∈ (s .accounts).rows) (own : same payee.accountName name = true) :
      Opened server c name s payee s
  | created (payee : Account) (absent : ∀ r ∈ (s .accounts).rows, same r.accountName name = false)
      (own : payee.accountName = cut 12 name)
      (new : ∀ r ∈ (s .accounts).rows, same r.accountName payee.accountName = false)
      (number : payee.pkAccountId = (s .accounts).next)
      (zero : payee.fioBalanceSuf = some 0) (change : Change c s (s.append .accounts [payee])) :
      Opened server c name s payee (s.append .accounts [payee])

structure Transferred (server : Server) (c : Call) (p q : Option String) (a : Option Int) (d : Steps) (s s' : DB) :
    Prop where
  known : d.payer = chosen (server.takes .accounts) .accounts (fun r : Account => same r.accountName p) s
  rest : d.payerbalance = minus (d.payer.bind Account.fioBalanceSuf) a
  bounded : outOfBounds d.payerbalance = false
  debit : Rebalanced c (d.payer.map Account.pkAccountId) d.payerbalance s d.debited
  payee : Opened server c q d.debited d.payee d.opened
  sum : d.payeebalance = plus d.payee.fioBalanceSuf a
  bounded' : outOfBounds d.payeebalance = false
  credit : Rebalanced c (some d.payee.pkAccountId) d.payeebalance d.opened d.credited
  amount : d.row.fioSufAmount = a
  paidBy : d.row.fkPayerAccountId = d.payer.map Account.pkAccountId
  paidTo : d.row.fkPayeeAccountId = some d.payee.pkAccountId
  recorded : s' = d.credited.append .tokenTransfers [d.row]
  change : Change c d.credited s'

section
variable {server : Server} {c : Call} {s s' : DB}

theorem rebalanced {id balance : Option Int} (transfers : c.transfers = true)
    (ran : update .accounts (fun r => same (some r.pkAccountId) id) (fun r => { r with fioBalanceSuf := balance }) s =
      .ok ((),s')) : Rebalanced c id balance s s' := by
  have change : Change c s s' := by
    refine updateChange .accounts ran fun r _ _ => ⟨rfl,Or.inr ⟨rfl,rfl⟩,rfl,fun no => ?_⟩
    rw [transfers] at no
    cases no
  obtain ⟨entries,_,rfl,_,_⟩ := updateWrites (a := .accounts) ran
  refine ⟨?_,fun t table log => ?_,?_,change⟩
  · rw [Database.appendOther _ (by decide), Database.withRowsSame]
    rfl
  · rw [Database.appendOther _ log, Database.withRowsOther _ table]
  · rw [Database.appendOther _ (by decide), Database.withRowsSame]

theorem creditOk {x b a paidBy balance : Option Int} {p q k w : Option String} {t : Option Timestamp} {id : Int}
    {v : Option Int} (ran : creditPayee x b paidBy a k w t (id,balance) s = .ok (v,s')) :
    ∃ payeebalance credited row, payeebalance = plus balance a ∧ outOfBounds payeebalance = false ∧
      Rebalanced (.insTokenTransfers x b p q a k w t) (some id) payeebalance s credited ∧
      row.fioSufAmount = a ∧ row.fkPayerAccountId = paidBy ∧ row.fkPayeeAccountId = some id ∧
      s' = credited.append .tokenTransfers [row] ∧ Change (.insTokenTransfers x b p q a k w t) credited s' := by
  obtain ⟨payeebalance,m₁,added,rest₁⟩ := bindOk.mp ran
  obtain ⟨more,rfl,_⟩ := toBigintOk.mp added
  cases bounded : outOfBounds payeebalance with
  | true =>
    simp only [bounded, if_true] at rest₁
    exact absurd rest₁ raiseOk
  | false =>
    simp only [bounded, Bool.false_eq_true, if_false] at rest₁
    obtain ⟨_,credited,credit,rest₂⟩ := bindOk.mp rest₁
    obtain ⟨transferType,m₂,checked,rest₃⟩ := bindOk.mp rest₂
    obtain ⟨_,m₃,inserted,last⟩ := bindOk.mp rest₃
    obtain ⟨_,rfl⟩ := oneOfOk.mp checked
    obtain ⟨_,rfl,_⟩ := toIntOk.mp last
    obtain ⟨_,target,_⟩ := insertIntoOk.mp inserted
    exact ⟨payeebalance,m₂,_,more,bounded,rebalanced rfl credit,rfl,rfl,rfl,target,insertChange inserted rfl rfl rfl⟩

theorem insTokenTransfersOk {x b a : Option Int} {p q k w : Option String} {t : Option Timestamp} {v : Option Int}
    (ran : insTokenTransfers server x b p q a k w t s = .ok (v,s')) :
    s' = s ∨ ∃ d, Transferred server (.insTokenTransfers x b p q a k w t) p q a d s s' := by
  rcases guardedOk ran with unmoved | rest
  · exact Or.inl unmoved
  · refine Or.inr ?_
    obtain ⟨payer,m₁,looked,rest₁⟩ := bindOk.mp rest
    obtain ⟨payerbalance,m₂,subtracted,rest₂⟩ := bindOk.mp rest₁
    obtain ⟨known,rfl⟩ := selectIntoOk.mp looked
    obtain ⟨less,rfl,_⟩ := toBigintOk.mp subtracted
    cases bounded : outOfBounds payerbalance with
    | true =>
      simp only [bounded, if_true] at rest₂
      exact absurd rest₂ raiseOk
    | false =>
      simp only [bounded, Bool.false_eq_true, if_false] at rest₂
      obtain ⟨_,debited,debit,rest₃⟩ := bindOk.mp rest₂
      obtain ⟨payee,m₃,found,rest₄⟩ := bindOk.mp rest₃
      obtain ⟨taken,rfl⟩ := selectIntoOk.mp found
      have debit := rebalanced (c := .insTokenTransfers x b p q a k w t) rfl debit
      cases payee with
      | none =>
        have absent := chosenNone.mp taken.symm
        obtain ⟨id,opened,created,rest₅⟩ := bindOk.mp rest₄
        obtain ⟨_,m₄,same,rest₆⟩ := bindOk.mp rest₅
        obtain ⟨rfl,rfl⟩ := pureOk.mp same
        obtain ⟨payeebalance,credited,row,more,bounded',credit,amount,paidBy,paidTo,recorded,change⟩ :=
          creditOk (p := p) (q := q) rest₆
        obtain ⟨number,target,valid⟩ := insertIntoOk.mp created
        have opens := insertChange (c := .insTokenTransfers x b p q a k w t) created rfl rfl
          ⟨accountNew (target ▸ valid),fun no => by cases no⟩
        subst target number
        exact ⟨⟨payer,payerbalance,m₃,_,_,payeebalance,credited,row⟩,known,less,bounded,debit,
          .created _ absent rfl (accountNew valid) rfl rfl opens,more,bounded',credit,amount,paidBy,paidTo,recorded,change⟩
      | some account =>
        obtain ⟨mem,own⟩ := chosenSome taken.symm
        obtain ⟨_,m₄,same,rest₅⟩ := bindOk.mp rest₄
        obtain ⟨rfl,rfl⟩ := pureOk.mp same
        obtain ⟨payeebalance,credited,row,more,bounded',credit,amount,paidBy,paidTo,recorded,change⟩ :=
          creditOk (p := p) (q := q) rest₅
        exact ⟨⟨payer,payerbalance,m₄,account,m₄,payeebalance,credited,row⟩,known,less,bounded,debit,
          .found account mem own,more,bounded',credit,amount,paidBy,paidTo,recorded,change⟩

theorem openedPayee {q : Option String} {payee : Account} (opened : Opened server c q s payee s') :
    payee ∈ (s' .accounts).rows := by
  cases opened with
  | found mem own => exact mem
  | created absent own new number zero change =>
    rw [Database.appendSame]
    exact List.mem_append_right _ List.mem_cons_self

theorem openedKempt {q : Option String} {payee : Account} (kempt : Kempt s) (opened : Opened server c q s payee s') :
    Kempt s' := by
  cases opened with
  | found mem own => exact kempt
  | created absent own new number zero change => exact kemptChange kempt change

end
end FioRelic

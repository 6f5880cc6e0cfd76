import FioRelic.Transfers

/-! Balances against the transfer ledger. While a transfer runs, the balances are ahead of
the ledger by what is pending; when it is recorded nothing is pending any more. -/
namespace FioRelic
open Relational Versioning

def ledgerSum (s : DB) (party : TokenTransfer → Option Int) (id : Int) : Int :=
  (((s .tokenTransfers).rows.filter fun r => same (party r) (some id)).map fun r => r.fioSufAmount.getD 0).sum

def received (s : DB) (id : Int) : Int := ledgerSum s TokenTransfer.fkPayeeAccountId id
def sent (s : DB) (id : Int) : Int := ledgerSum s TokenTransfer.fkPayerAccountId id

structure Books (pending : Int → Int) (s : DB) : Prop where
  bounded : ∀ r ∈ (s .accounts).rows, ∃ n, r.fioBalanceSuf = some n ∧ 0 ≤ n ∧ n ≤ supply
  agrees : ∀ r ∈ (s .accounts).rows, r.accountName ≠ fioToken →
    r.fioBalanceSuf = some (received s r.pkAccountId - sent s r.pkAccountId + pending r.pkAccountId)

def due (party : Option Int) (n : Int) (id : Int) : Int := if same (some id) party then n else 0

section Books
variable {server : Server} {c : Call} {s s' s₀ : DB} {pending pending' : Int → Int}

theorem ledgerCongr (rows : (s' .tokenTransfers).rows = (s .tokenTransfers).rows) (id : Int) :
    received s' id = received s id ∧ sent s' id = sent s id := by
  unfold received sent ledgerSum
  rw [rows]
  exact ⟨rfl,rfl⟩

theorem booksCongr (accounts : (s' .accounts).rows.map money = (s .accounts).rows.map money)
    (transfers : (s' .tokenTransfers).rows = (s .tokenTransfers).rows) (books : Books pending s) : Books pending s' := by
  constructor
  · intro r mem
    obtain ⟨old,stored,_,_,balance⟩ := moneyAlike accounts mem
    rw [balance]
    exact books.bounded old stored
  · intro r mem other
    obtain ⟨old,stored,number,name,balance⟩ := moneyAlike accounts mem
    rw [(ledgerCongr transfers _).1, (ledgerCongr transfers _).2, balance, number]
    exact books.agrees old stored (name ▸ other)

theorem unreferred (kempt : Kempt s) {party : TokenTransfer → Option Int}
    (reference : (⟨party,.accounts⟩ : Reference TableName TokenTransfer) ∈ references .tokenTransfers) :
    ledgerSum s party (s .accounts).next = 0 := by
  have none : (s .tokenTransfers).rows.filter (fun r => same (party r) (some (s .accounts).next)) = [] := by
    refine List.filter_eq_nil_iff.mpr fun r mem hit => ?_
    obtain ⟨id,refers,own⟩ := sameTrue.mp hit
    cases own
    obtain ⟨account,stored,number⟩ := kempt.valid.parentRow reference mem refers
    have issued := (kempt.serial .accounts rfl).2 _ (List.mem_map_of_mem stored)
    change Account.pkAccountId account = _ at number
    change Account.pkAccountId account < _ at issued
    omega
  unfold ledgerSum
  rw [none]
  rfl

theorem freshLedger (kempt : Kempt s) : received s (s .accounts).next = 0 ∧ sent s (s .accounts).next = 0 :=
  ⟨unreferred kempt (by simp [references]),unreferred kempt (by simp [references])⟩

theorem booksOpened (kempt : Kempt s) {r : Account} {n : Int} (accounts : (s' .accounts).rows = (s .accounts).rows ++ [r])
    (transfers : (s' .tokenTransfers).rows = (s .tokenTransfers).rows) (number : r.pkAccountId = (s .accounts).next)
    (quiet : pending r.pkAccountId = 0) (opening : r.fioBalanceSuf = some n) (low : 0 ≤ n) (high : n ≤ supply)
    (zero : r.accountName ≠ fioToken → n = 0) (books : Books pending s) : Books pending s' := by
  constructor
  · intro r' mem
    rw [accounts] at mem
    rcases List.mem_append.mp mem with old | new
    · exact books.bounded r' old
    · rw [List.mem_singleton.mp new]
      exact ⟨n,opening,low,high⟩
  · intro r' mem other
    rw [(ledgerCongr transfers _).1, (ledgerCongr transfers _).2]
    rw [accounts] at mem
    rcases List.mem_append.mp mem with old | new
    · exact books.agrees r' old other
    · cases List.mem_singleton.mp new
      obtain ⟨received,sent⟩ := freshLedger kempt
      rw [quiet, number, received, sent, opening, zero other]
      rfl

theorem booksChange (quiet : c.transfers = false) (kempt : Kempt s) (h : Change c s s') (books : Books (fun _ => 0) s) :
    Books (fun _ => 0) s' := by
  have transfers := quietTransfers quiet h
  rcases quietAccounts quiet h with alike | ⟨r,accounts,number,_,opening⟩
  · exact booksCongr alike transfers books
  · unfold openingBalance at opening
    cases token : same r.accountName fioToken with
    | true =>
      simp only [token, if_true] at opening
      obtain ⟨name,own,known⟩ := sameTrue.mp token
      refine booksOpened kempt accounts transfers number rfl opening (by decide) (by decide) (fun other => ?_) books
      exact absurd (own.trans known.symm) other
    | false =>
      simp only [token, Bool.false_eq_true, if_false] at opening
      exact booksOpened kempt accounts transfers number rfl opening (by decide) (by decide) (fun _ => rfl) books

theorem booksChanges (quiet : c.transfers = false) (kempt : Kempt s) (h : Changes c s s')
    (books : Books (fun _ => 0) s) : Books (fun _ => 0) s' := by
  induction h with
  | refl => exact books
  | tail before last ih => exact booksChange quiet (kemptChanges kempt before) last ih

theorem booksRebalanced {id balance : Option Int} (re : Rebalanced c id balance s s')
    (others : ∀ i, same (some i) id = false → pending' i = pending i)
    (own : ∀ r ∈ (s .accounts).rows, same (some r.pkAccountId) id = true → ∃ n, balance = some n ∧ 0 ≤ n ∧ n ≤ supply ∧
      (r.accountName ≠ fioToken → n = received s r.pkAccountId - sent s r.pkAccountId + pending' r.pkAccountId))
    (books : Books pending s) : Books pending' s' := by
  have transfers : (s' .tokenTransfers).rows = (s .tokenTransfers).rows := by rw [re.others _ (by decide) (by decide)]
  constructor
  · intro r mem
    rw [re.rows] at mem
    obtain ⟨old,stored,rfl⟩ := List.mem_map.mp mem
    unfold withBalance
    cases hit : same (some old.pkAccountId) id with
    | true =>
      obtain ⟨n,written,low,high,_⟩ := own old stored hit
      exact ⟨n,written,low,high⟩
    | false => exact books.bounded old stored
  · intro r mem other
    rw [re.rows] at mem
    obtain ⟨old,stored,rfl⟩ := List.mem_map.mp mem
    rw [(ledgerCongr transfers _).1, (ledgerCongr transfers _).2]
    unfold withBalance at other ⊢
    cases hit : same (some old.pkAccountId) id with
    | true =>
      rw [hit] at other
      obtain ⟨n,written,_,_,agrees⟩ := own old stored hit
      exact written.trans (congrArg some (agrees other))
    | false =>
      rw [hit] at other
      have agrees := books.agrees old stored other
      rw [← others _ hit] at agrees
      exact agrees

theorem outOfBoundsFalse {n : Int} (h : outOfBounds (some n) = false) : 0 ≤ n ∧ n ≤ supply := by
  simp only [outOfBounds, Option.any_some, decide_eq_false_iff_not] at h
  omega

theorem booksRecorded {row : TokenTransfer} {n : Int} (amount : row.fioSufAmount = some n)
    (books : Books (fun i => due row.fkPayeeAccountId n i - due row.fkPayerAccountId n i) s) :
    Books (fun _ => 0) (s.append .tokenTransfers [row]) := by
  have accounts : (s.append .tokenTransfers [row]) .accounts = s .accounts := Database.appendOther _ (by decide) _
  have grows : ∀ (party : TokenTransfer → Option Int) id,
      ledgerSum (s.append .tokenTransfers [row]) party id = ledgerSum s party id + due (party row) n id := by
    intro party id
    have swap : same (party row) (some id) = same (some id) (party row) := by
      cases party row with
      | none => rfl
      | some i => simp [eq_comm]
    unfold ledgerSum due
    rw [Database.appendSame, List.filter_append, List.map_append, List.sum_append]
    cases hit : same (some id) (party row) <;> simp [swap, hit, amount]
  constructor
  · rw [accounts]
    exact books.bounded
  · intro r mem other
    rw [accounts] at mem
    rw [books.agrees r mem other]
    unfold received sent
    rw [grows, grows]
    congr 1
    omega

theorem booksPayee {q : Option String} {payee : Account} (kempt : Kempt s) (opened : Opened server c q s payee s')
    (quiet : pending (s .accounts).next = 0) (books : Books pending s) : Books pending s' := by
  cases opened with
  | found mem own => exact books
  | created absent own new number zero change =>
    exact booksOpened kempt (by rw [Database.appendSame]) (by rw [Database.appendOther _ (by decide)]) number
      (number ▸ quiet) zero (by decide) (by decide) (fun _ => rfl) books

theorem booksTransferred {p q : Option String} {n : Int} {d : Steps} (kempt : Kempt s)
    (h : Transferred server c p q (some n) d s s') (books : Books (fun _ => 0) s) : Books (fun _ => 0) s' := by
  have stored : ∀ payer, d.payer = some payer → payer ∈ (s .accounts).rows := fun payer known =>
    (chosenSome (h.known.symm.trans known)).1
  have kempt₁ := kemptChange kempt h.debit.change
  have kempt₂ := openedKempt kempt₁ h.payee
  have debited : Books (fun i => -due (d.payer.map Account.pkAccountId) n i) d.debited := by
    refine booksRebalanced h.debit (fun i other => by simp [due, other]) (fun r mem own => ?_) books
    obtain ⟨id,number,refers⟩ := sameTrue.mp own
    obtain ⟨payer,known,number'⟩ := Option.map_eq_some_iff.mp refers
    have same : r = payer :=
      kempt.valid.sameRow mem (stored payer known) ((Option.some.inj number).trans number'.symm)
    subst same
    obtain ⟨m,balance,_,_⟩ := books.bounded r mem
    have written : d.payerbalance = some (m - n) := by
      rw [h.rest, known, Option.bind_some, balance]
      rfl
    obtain ⟨low,high⟩ := outOfBoundsFalse (written ▸ h.bounded)
    refine ⟨m - n,written,low,high,fun other => ?_⟩
    have agrees := books.agrees r mem other
    rw [balance] at agrees
    have agrees := Option.some.inj agrees
    simp only [due, own, if_true]
    omega
  have opened : Books (fun i => -due (d.payer.map Account.pkAccountId) n i) d.opened := by
    refine booksPayee kempt₁ h.payee ?_ debited
    cases known : d.payer with
    | none => rfl
    | some payer =>
      have issued := (kempt.serial .accounts rfl).2 _ (List.mem_map_of_mem (stored payer known))
      change payer.pkAccountId < _ at issued
      have differ : (d.debited .accounts).next ≠ payer.pkAccountId := by
        rw [h.debit.next]
        omega
      simp [due, differ]
  have credited : Books (fun i => due (some d.payee.pkAccountId) n i - due (d.payer.map Account.pkAccountId) n i)
      d.credited := by
    refine booksRebalanced h.credit (fun i other => by simp [due, other]) (fun r mem own => ?_) opened
    have number : r.pkAccountId = d.payee.pkAccountId := of_decide_eq_true own
    have same : r = d.payee := kempt₂.valid.sameRow mem (openedPayee h.payee) number
    obtain ⟨m,balance,_,_⟩ := opened.bounded r mem
    have written : d.payeebalance = some (m + n) := by
      rw [h.sum, ← same, balance]
      rfl
    obtain ⟨low,high⟩ := outOfBoundsFalse (written ▸ h.bounded')
    refine ⟨m + n,written,low,high,fun other => ?_⟩
    have agrees := opened.agrees r mem other
    rw [balance] at agrees
    have agrees := Option.some.inj agrees
    have credits : due (some d.payee.pkAccountId) n r.pkAccountId = n := by simp [due, number]
    rw [credits]
    omega
  rw [h.recorded]
  refine booksRecorded h.amount ?_
  rw [h.paidBy, h.paidTo]
  exact credited

end Books

def Call.amounts : Call → Bool
  | .insTokenTransfers _ _ _ _ sufamount .. => sufamount.isSome
  | _ => true

theorem booksRun {history : List Event} (order : ChainOrder history) (amounts : ∀ e ∈ history, e.call.amounts = true) :
    Books (fun _ => 0) (run history).db ∧ ∀ p ∈ (run history).before, Books (fun _ => 0) p.2 := by
  refine reorgInduction (P := Books fun _ => 0) ?_ ?_ ?_ ?_ ?_ order (meetsEach amounts)
  · exact ⟨fun _ mem => absurd mem List.not_mem_nil,fun _ mem => absurd mem List.not_mem_nil⟩
  · exact fun s drawn books => ⟨books.bounded,books.agrees⟩
  · exact fun s b books => booksCongr (by rw [blockOther (by decide)]) (by rw [blockOther (by decide)]) books
  · intro n e s' v _ met standing _ ran changes books
    have kempt := standing.kempt
    cases kind : e.call with
    | insTokenTransfers x b p q a k w t =>
      rw [kind] at ran met
      obtain ⟨amount,given⟩ := Option.isSome_iff_exists.mp met
      subst given
      rcases insTokenTransfersOk ran with unmoved | ⟨d,steps⟩
      · exact unmoved ▸ books
      · exact booksTransferred kempt steps books
    | _ => exact booksChanges (by rw [kind]; rfl) kempt changes books
  · intro s' s₀ _ _ restored books
    exact booksCongr (by rw [restoredRows restored (a := .accounts) rfl fun _ => rfl])
      (restored.plain .tokenTransfers rfl) books

theorem balancesAgree {history : List Event} (order : ChainOrder history)
    (amounts : ∀ e ∈ history, e.call.amounts = true) :
    ∀ r ∈ ((run history).db .accounts).rows, ∃ n, r.fioBalanceSuf = some n ∧ 0 ≤ n ∧ n ≤ 1000000000000000000 ∧
      (r.accountName ≠ some "fio.token" →
        n = received (run history).db r.pkAccountId - sent (run history).db r.pkAccountId) := by
  have books := (booksRun order amounts).1
  intro r mem
  obtain ⟨n,balance,low,high⟩ := books.bounded r mem
  refine ⟨n,balance,low,high,fun other => ?_⟩
  have agrees := books.agrees r mem other
  rw [balance] at agrees
  have agrees := Option.some.inj agrees
  omega

def bob : Account := ⟨4,some 2,some "bob",some "",some 5,none⟩

theorem balancesAgreeRetransferred : bob ∈ ((run (events retransferred)).db .accounts).rows ∧
    ∃ n, bob.fioBalanceSuf = some n ∧ 0 ≤ n ∧ n ≤ 1000000000000000000 ∧ (bob.accountName ≠ some "fio.token" →
      n = received (run (events retransferred)).db bob.pkAccountId -
        sent (run (events retransferred)).db bob.pkAccountId) := by
  have opened : bob ∈ ((run (events retransferred)).db .accounts).rows := by decide +kernel
  exact ⟨opened,balancesAgree (by decide +kernel) (by decide) bob opened⟩

end FioRelic

import FioRelic.Renumbering
import FioRelic.Undo

/-! One lemma for each stored procedure: on a database that holds the same rows under
other ids it returns when it returned on the first, and the rows still are the same. The
rules below read both runs statement by statement. -/
namespace FioRelic
open Relational

def Server.Least (server : Server) : Prop := ∀ t ks, ks ≠ [] → server.takes t ks % ks.length = 0

abbrev Twins (f : Renaming) (x y : Proc (Option Int)) : Prop := Follows f.matching (fun _ _ => True) x y

def SameId (f : Renaming) (u : TableName) (k k' : Int) : Prop := f.known u k ∧ k' = f.ids u k

section Rules
variable {α β : Type} {R : α → α → Prop} {f : Renaming} {server : Server} {u : TableName}

theorem idSame {j k : Int} (listed : u ∈ followed) (known : f.known u j) (known' : f.known u k) :
    decide (f.ids u j = f.ids u k) = decide (j = k) :=
  decide_eq_decide.mpr ⟨f.injective u listed j k known known',congrArg _⟩

theorem idsSame {j : Int} {n : Option Int} (listed : u ∈ followed) (known : f.known u j)
    (known' : ∀ k, n = some k → f.known u k) : same (some (f.ids u j)) (n.map (f.ids u)) = same (some j) n := by
  cases n with
  | none => rfl
  | some k => exact idSame listed known (known' k rfl)

theorem blocksListed : TableName.blocks ∈ followed := by decide

theorem numberedListed (numbered : u.numbered = true) : u ∈ followed := by
  cases u <;> first
    | decide
    | cases numbered

theorem numberedOther (numbered : u.numbered = true) : u ≠ .blocks := by
  intro own
  subst own
  cases numbered

theorem twinWhole (whole : ∀ r, shown u r = r) {r r' : Row u} (twin : f.matching.twin u r r') :
    f.known u (key u r) ∧ r' = renumber f.ids u r := by
  obtain ⟨known,same,_⟩ := twin
  rw [whole, whole] at same
  exact ⟨known,same⟩

theorem twinRenumbered (listed : u ∈ followed) {r : Row u} (known : f.known u (key u r)) :
    f.matching.twin u r (renumber f.ids u r) := ⟨known,rfl,fitsRenumber f listed known⟩

theorem logApart (a : Audited) : ∀ w ∈ followed, w ≠ a.log := by cases a <;> decide

theorem trailingLog {a : Audited} (numbered : a.table.numbered = true) : a.log ∈ trailing := by
  cases a <;> first
    | decide
    | cases numbered

namespace Twins

theorem guarded {b : Option Int} {k : Option Int} {x y : Proc (Option Int)} (rest : Twins f x y) :
    Twins f (if below b (some 0) then return k else x) (if below b (some 0) then return k else y) :=
  .ite Iff.rfl (fun _ => .pure trivial) fun _ => rest

theorem looked (least : server.Least) (numbered : u.numbered = true) (whole : ∀ r, shown u r = r) {p p' : Row u → Bool}
    (agree : ∀ r, f.known u (key u r) → p' (renumber f.ids u r) = p r) {g h : Option (Row u) → Proc α}
    (rest : ∀ found, (∀ r, found = some r → f.known u (key u r)) →
      Follows f.matching R (g found) (h (found.map (renumber f.ids u)))) :
    Follows f.matching R (select server u p >>= g) (select server u p' >>= h) := by
  refine .bind (.select (numberedListed numbered) (least u) fun r r' twin => ?_) fun found found' related => ?_
  · obtain ⟨known,rfl⟩ := twinWhole whole twin
    exact agree r known
  · cases related with
    | none => exact rest none fun _ absent => by cases absent
    | some twin =>
      obtain ⟨known,rfl⟩ := twinWhole whole twin
      exact rest (some _) fun r same => by cases same; exact known

theorem account (least : server.Least) {name : Option String} {g h : Option Account → Proc α}
    (rest : ∀ found, (∀ r, found = some r → f.known .accounts r.pkAccountId) →
      Follows f.matching R (g found) (h (found.map (renumber f.ids .accounts)))) :
    Follows f.matching R (select server .accounts (fun r => same r.accountName name) >>= g)
      (select server .accounts (fun r => same r.accountName name) >>= h) :=
  looked (u := .accounts) least rfl (fun _ => rfl) (fun _ _ => by rfl) rest

theorem domain (least : server.Least) {name : Option String} {g h : Option Domain → Proc α}
    (rest : ∀ found, (∀ r, found = some r → f.known .domains r.pkDomainId) →
      Follows f.matching R (g found) (h (found.map (renumber f.ids .domains)))) :
    Follows f.matching R (select server .domains (fun r => same r.domainName name) >>= g)
      (select server .domains (fun r => same r.domainName name) >>= h) :=
  looked (u := .domains) least rfl (fun _ => rfl) (fun _ _ => by rfl) rest

theorem handle (least : server.Least) {name : Option String} {g h : Option Handle → Proc α}
    (rest : ∀ found, (∀ r, found = some r → f.known .handles r.pkHandleId) →
      Follows f.matching R (g found) (h (found.map (renumber f.ids .handles)))) :
    Follows f.matching R (select server .handles (fun r => same r.handle name) >>= g)
      (select server .handles (fun r => same r.handle name) >>= h) :=
  looked (u := .handles) least rfl (fun _ => rfl) (fun _ _ => by rfl) rest

theorem steady {x : Proc α} (steady : ∀ s v s', x s = .ok (v,s') → s' = s ∧ ∀ t, x t = .ok (v,t)) :
    Follows f.matching (fun a b => b = a) x x :=
  .reads fun s t _ a s' ran => ⟨(steady s a s' ran).1,a,(steady s a s' ran).2 t,rfl⟩

theorem oneOf {allowed : List String} {text : Option String} {g h : OneOf allowed → Proc α}
    (rest : ∀ value, Follows f.matching R (g value) (h value)) :
    Follows f.matching R (oneOf allowed text >>= g) (FioRelic.Relational.oneOf allowed text >>= h) := by
  refine .bind (steady fun s v s' ran => ?_) fun a b same => same ▸ rest a
  obtain ⟨given,kept⟩ := oneOfOk.mp ran
  exact ⟨kept,fun t => oneOfOk.mpr ⟨given,rfl⟩⟩

theorem toInt {n n' : Option Int} (numbered : u.numbered = true)
    (known : ∀ k, n = some k → f.known u k) (renamed : n' = n.map (f.ids u)) :
    Follows f.matching (fun a b => b = a.map (f.ids u)) (toInt n) (FioRelic.toInt n') := by
  refine .reads fun s t _ a s' ran => ?_
  obtain ⟨rfl,kept,fits⟩ := toIntOk.mp ran
  refine ⟨kept,n',toIntOk.mpr ⟨rfl,rfl,fun k' given => ?_⟩,renamed⟩
  subst renamed
  obtain ⟨k,stored,rfl⟩ := Option.map_eq_some_iff.mp given
  have bound := f.fits u (numberedListed numbered) (numberedOther numbered) k (known k stored)
  have narrow := fits k stored
  simp only [fitsInt, decide_eq_true_eq] at narrow ⊢
  omega

theorem answer {n n' : Option Int} (numbered : u.numbered = true)
    (known : ∀ k, n = some k → f.known u k) (renamed : n' = n.map (f.ids u)) :
    Twins f (FioRelic.toInt n) (FioRelic.toInt n') := by
  intro s t hold a s' ran
  obtain ⟨b,t',returned,_,hold'⟩ := toInt numbered known renamed s t hold a s' ran
  exact ⟨b,t',returned,trivial,hold'⟩

theorem toBigint {n : Option Int} {g h : Option Int → Proc α} (rest : ∀ v, Follows f.matching R (g v) (h v)) :
    Follows f.matching R (toBigint n >>= g) (FioRelic.toBigint n >>= h) := by
  refine .bind (steady fun s v s' ran => ?_) fun a b same => same ▸ rest a
  obtain ⟨rfl,kept,fits⟩ := toBigintOk.mp ran
  exact ⟨kept,fun t => toBigintOk.mpr ⟨rfl,rfl,fits⟩⟩

theorem insert {row row' : Int → Row u} (numbered : u.numbered = true)
    (twin : ∀ k, row' (f.ids u k) = renumber f.ids u (row k)) (number : ∀ k, key u (row k) = k)
    (number' : ∀ k, key u (row' k) = k) :
    Follows f.matching (SameId f u) (insertInto u row) (insertInto u row') :=
  .insert (numberedListed numbered) (serialTables (numberedOther numbered))
    (fun k known => twin k ▸ twinRenumbered (numberedListed numbered) ((number k).symm ▸ known)) number'

theorem inserted {row row' : Int → Row u} (numbered : u.numbered = true)
    (twin : ∀ k, row' (f.ids u k) = renumber f.ids u (row k)) (number : ∀ k, key u (row k) = k)
    (number' : ∀ k, key u (row' k) = k) :
    Twins f (do
      let pkid ← insertInto (S := relic) u row
      FioRelic.toInt (some pkid)) (do
      let pkid ← insertInto (S := relic) u row'
      FioRelic.toInt (some pkid)) := by
  refine .bind (insert numbered twin number number') fun k k' ⟨known,same⟩ => ?_
  exact answer numbered (fun j given => by cases given; exact known) (by rw [same]; rfl)

/- An UPDATE of rows and of their twins. The triggers write beside the followed tables, and
no more for the twins: a row that stays as it is has a twin that does. -/
theorem update (a : Audited) (numbered : a.table.numbered = true) {p p' : Row a.table → Bool}
    {assign assign' : Row a.table → Row a.table} (agree : ∀ r r', f.matching.twin a.table r r' → p' r' = p r)
    (assigns : ∀ r r', f.matching.twin a.table r r' → p r = true → f.matching.twin a.table (assign r) (assign' r'))
    (still : ∀ r r', f.matching.twin a.table r r' → assign r = r → assign' r' = r')
    (number : ∀ r, key a.table (assign' r) = key a.table r) :
    Follows f.matching (fun _ _ => True) (update a.table p assign) (FioRelic.update a.table p' assign') := by
  intro s t hold v s' ran
  have listed := numberedListed numbered
  have room := (updateDraws ran).room
  obtain ⟨entries,source,rfl,committed,_⟩ := updateWrites ran
  have twins : List.Forall₂ (f.matching.twin a.table) ((s a.table).rows.map (assigned p assign))
      ((t a.table).rows.map (assigned p' assign')) := by
    refine List.rel_map (fun r r' twin => ?_) (hold.rows a.table listed)
    unfold assigned
    rw [agree r r' twin]
    split
    · exact assigns r r' twin (by assumption)
    · exact twin
  have fewer : (changed p' assign' (t a.table).rows).length ≤ (changed p assign (s a.table).rows).length := by
    refine twinsFewer (hold.rows a.table listed) fun r r' twin hit => ?_
    simp only [Bool.and_eq_true, decide_eq_true_eq] at hit ⊢
    exact ⟨by rw [← agree r r' twin]; exact hit.1,fun same => hit.2 (still r r' twin same.symm).symm⟩
  have keys : ((t a.table).rows.map (assigned p' assign')).map (key a.table) = t.keys a.table :=
    assignedKeys fun r _ _ => number r
  have hold' := hold.rewrite listed twins keys committed
  have draws := ((hold.room (trailingLog numbered) room).less fewer).draws hold.serial (serialLog a)
  obtain ⟨t',returned⟩ := updateRuns hold.valid draws (fun r _ _ => number r) hold'.valid
  obtain ⟨entries',logged,rfl,_,valid⟩ := updateWrites returned
  refine ⟨(),_,returned,trivial,hold'.aside (fun w inList => ?_) (fun w inList => ?_) (fun w inLogs => ?_) valid ?_⟩
  · exact Database.appendOther _ (logApart a w inList) _
  · exact Database.appendOther _ (logApart a w inList) _
  · by_cases own : w = a.log
    · subst own
      obtain ⟨low,le⟩ := hold'.behind a.log inLogs
      rw [Database.appendSame, Database.appendSame, ← logged.each.length_eq, ← source.each.length_eq]
      simp only
      omega
    · rw [Database.appendOther _ own, Database.appendOther _ own]
      exact hold'.behind w inLogs
  · exact writtenSerial hold.serial (keys ▸ List.Sublist.refl _) logged.drawn

theorem updateAt (a : Audited) (numbered : a.table.numbered = true) (whole : ∀ r, shown a.table r = r) (pkid : Option Int)
    (known : ∀ k, pkid = some k → f.known a.table k) {assign assign' : Row a.table → Row a.table}
    (assigns : ∀ r, assign' (renumber f.ids a.table r) = renumber f.ids a.table (assign r))
    (number : ∀ r, key a.table (assign r) = key a.table r) (number' : ∀ r, key a.table (assign' r) = key a.table r) :
    Follows f.matching (fun _ _ => True) (FioRelic.update a.table (fun r => same (some (key a.table r)) pkid) assign)
      (FioRelic.update a.table (fun r => same (some (key a.table r)) (pkid.map (f.ids a.table))) assign') := by
  have listed := numberedListed numbered
  refine update a numbered (fun r r' twin => ?_) (fun r r' twin _ => ?_) (fun r r' twin same => ?_) number'
  · obtain ⟨stored,rfl⟩ := twinWhole whole twin
    rw [keyRenumber listed fun k => (f.blocks k).2]
    exact idsSame listed stored known
  · obtain ⟨stored,rfl⟩ := twinWhole whole twin
    rw [assigns]
    exact twinRenumbered listed ((number r).symm ▸ stored)
  · obtain ⟨_,rfl⟩ := twinWhole whole twin
    rw [assigns, same]

theorem rewritten (a : Audited) (numbered : a.table.numbered = true) (whole : ∀ r, shown a.table r = r)
    {found : Option (Row a.table)} (known : ∀ r, found = some r → f.known a.table (key a.table r))
    {assign assign' : Row a.table → Row a.table}
    (assigns : ∀ r, assign' (renumber f.ids a.table r) = renumber f.ids a.table (assign r))
    (number : ∀ r, key a.table (assign r) = key a.table r) (number' : ∀ r, key a.table (assign' r) = key a.table r) :
    Twins f (do
      FioRelic.update a.table (fun r => same (some (key a.table r)) (found.map (key a.table))) assign
      FioRelic.toInt (found.map (key a.table))) (do
      FioRelic.update a.table
        (fun r => same (some (key a.table r)) ((found.map (renumber f.ids a.table)).map (key a.table))) assign'
      FioRelic.toInt ((found.map (renumber f.ids a.table)).map (key a.table))) := by
  have named : (found.map (renumber f.ids a.table)).map (key a.table) =
      (found.map (key a.table)).map (f.ids a.table) := by
    cases found with
    | none => rfl
    | some r => exact congrArg some (keyRenumber (numberedListed numbered) (fun k => (f.blocks k).2) r)
  have stored : ∀ k, found.map (key a.table) = some k → f.known a.table k := by
    intro k given
    obtain ⟨r,same,rfl⟩ := Option.map_eq_some_iff.mp given
    exact known r same
  rw [named]
  exact .bind (updateAt a numbered whole _ stored assigns number number') fun _ _ _ => answer numbered stored rfl

end Twins
end Rules

section Ledger
variable {f : Renaming} {server : Server}

theorem castTimestampSteady {text : Option String} : ∀ (s : DB) v s', castTimestamp server text s = .ok (v,s') →
    s' = s ∧ ∀ t : DB, castTimestamp server text t = .ok (v,t) := by
  intro s v s' ran
  cases text with
  | none =>
    obtain ⟨rfl,rfl⟩ := pureOk.mp ran
    exact ⟨rfl,fun t => rfl⟩
  | some text =>
    unfold castTimestamp at ran ⊢
    cases read : server.timestamp text with
    | none =>
      simp only [read] at ran
      exact absurd ran throwOk
    | some stamp =>
      simp only [read] at ran
      obtain ⟨rfl,rfl⟩ := pureOk.mp ran
      exact ⟨rfl,fun t => by simp only [read]; rfl⟩

theorem insBlocksTwins {n : Option Int} {t i p w : Option String} :
    Twins f (insBlocks server n t i p w) (insBlocks server n t i p w) := by
  refine .guarded (.bind (Twins.steady castTimestampSteady) fun stamp _ same => ?_)
  subst same
  cases n with
  | none => exact .throw
  | some number =>
    refine .bind (.store blocksListed rfl ?_) fun _ _ _ => .pure trivial
    exact twinRenumbered blocksListed (f.blocks number).1

theorem insUpdAccountsTwins (least : server.Least) {b : Option Int} {n k : Option String} {t : Option Timestamp}
    {u : Option Bool} : Twins f (insUpdAccounts server b n k t u) (insUpdAccounts server b n k t u) := by
  refine Twins.account least fun found known => ?_
  cases found with
  | none =>
    refine .ite Iff.rfl (fun _ => ?_) fun _ => ?_
    · exact Twins.inserted rfl (fun _ => rfl) (fun _ => rfl) fun _ => rfl
    · exact Twins.inserted rfl (fun _ => rfl) (fun _ => rfl) fun _ => rfl
  | some account =>
    have stored : ∀ k, some account.pkAccountId = some k → f.known .accounts k :=
      fun k same => by cases same; exact known account rfl
    refine .ite Iff.rfl (fun _ => ?_) fun _ => Twins.answer rfl stored rfl
    refine .bind (Twins.updateAt .accounts rfl (fun _ => rfl) (some account.pkAccountId) stored (fun _ => rfl) (fun _ => rfl)
      fun _ => rfl) fun _ _ _ => Twins.answer rfl stored rfl

theorem openedTwins {b opening : Option Int} {name publicKey : Option String} {stamp : Option Timestamp} :
    Follows f.matching (SameId f .accounts)
      (insertInto (S := relic) .accounts fun pk => (⟨pk,b,name,publicKey,opening,stamp⟩ : Account))
      (insertInto (S := relic) .accounts fun pk => (⟨pk,b,name,publicKey,opening,stamp⟩ : Account)) :=
  Twins.insert rfl (fun _ => rfl) (fun _ => rfl) fun _ => rfl

theorem systemAccountTwins (least : server.Least) {b : Option Int} {name : Option String} {stamp : Option Timestamp}
    {g h : Option Int → Proc (Option Int)}
    (rest : ∀ id, (∀ k, id = some k → f.known .accounts k) → Twins f (g id) (h (id.map (f.ids .accounts)))) :
    Twins f (withActor server b name stamp g) (withActor server b name stamp h) := by
  have opened : ∀ k k', SameId f .accounts k k' → Twins f (g (some k)) (h (some k')) := by
    intro k k' ⟨known,same⟩
    subst same
    exact rest (some k) fun j given => by cases given; exact known
  refine Twins.account least fun found known => ?_
  cases found with
  | some account => exact rest (some account.pkAccountId) fun k given => by cases given; exact known account rfl
  | none =>
    refine .ite Iff.rfl (fun _ => ?_) fun _ => .ite Iff.rfl (fun _ => ?_) fun _ => rest none fun _ absent => by cases absent
    · exact .bind openedTwins opened
    · exact .bind openedTwins opened

theorem insTransactionsTwins (least : server.Least) {b m : Option Int} {t : Option Timestamp}
    {x ac an a p q r w : Option String} :
    Twins f (insTransactions server b t x ac an a p m q r w) (insTransactions server b t x ac an a p m q r w) := by
  refine .guarded (Twins.account least fun found known => ?_)
  cases found with
  | some account => exact systemAccountTwins least fun _ _ => Twins.inserted rfl (fun _ => rfl) (fun _ => rfl) fun _ => rfl
  | none =>
    refine .ite Iff.rfl (fun _ => .raise) fun _ => .bind openedTwins fun id _ ⟨_,same⟩ => ?_
    subst same
    exact systemAccountTwins least fun _ _ => Twins.inserted rfl (fun _ => rfl) (fun _ => rfl) fun _ => rfl

theorem insTracesTwins (least : server.Least) {x b o : Option Int} {ac rc a q : Option String} {t : Option Timestamp} :
    Twins f (insTraces server x b ac rc o a q t)
      (insTraces server (x.map (f.ids .transactions)) b ac rc o a q t) := by
  refine .guarded (Twins.account least fun found known => ?_)
  cases found with
  | some account => exact systemAccountTwins least fun _ _ => Twins.inserted rfl (fun _ => rfl) (fun _ => rfl) fun _ => rfl
  | none =>
    refine .ite Iff.rfl (fun _ => .bind openedTwins fun id _ ⟨_,same⟩ => ?_) fun _ =>
      .bind openedTwins fun id _ ⟨_,same⟩ => ?_
    · subst same
      exact systemAccountTwins least fun _ _ => Twins.inserted rfl (fun _ => rfl) (fun _ => rfl) fun _ => rfl
    · subst same
      exact systemAccountTwins least fun _ _ => Twins.inserted rfl (fun _ => rfl) (fun _ => rfl) fun _ => rfl

theorem insAccountActivitiesTwins (least : server.Least) {x b : Option Int} {a k : Option String} :
    Twins f (insAccountActivities server x b a k)
      (insAccountActivities server (x.map (f.ids .transactions)) b a k) := by
  refine .guarded (Twins.account least fun found _ => Twins.oneOf fun value => ?_)
  exact Twins.inserted rfl (fun _ => by cases found <;> rfl) (fun _ => rfl) fun _ => rfl

theorem insAccountActivitiesHandleTwins (least : server.Least) {x b : Option Int} {h k : Option String} :
    Twins f (insAccountActivitiesHandle server x b h k)
      (insAccountActivitiesHandle server (x.map (f.ids .transactions)) b h k) := by
  refine .guarded (Twins.handle least fun found _ => Twins.oneOf fun value => ?_)
  exact Twins.inserted rfl (fun _ => by cases found <;> rfl) (fun _ => rfl) fun _ => rfl

theorem payeeTwins (least : server.Least) {b : Option Int} {name : Option String} {stamp : Option Timestamp}
    {g h : Int × Option Int → Proc (Option Int)}
    (rest : ∀ id amount, f.known .accounts id → Twins f (g (id,amount)) (h (f.ids .accounts id,amount))) :
    Twins f (do
      let payee ← select server .accounts fun r => same r.accountName name
      let credited ← match payee with
        | some account => pure (account.pkAccountId,account.fioBalanceSuf)
        | none => do
          let id ← insertInto (S := relic) .accounts fun pk => (⟨pk,b,cut 12 name,some "",some 0,stamp⟩ : Account)
          pure (id,some 0)
      g credited) (do
      let payee ← select server .accounts fun r => same r.accountName name
      let credited ← match payee with
        | some account => pure (account.pkAccountId,account.fioBalanceSuf)
        | none => do
          let id ← insertInto (S := relic) .accounts fun pk => (⟨pk,b,cut 12 name,some "",some 0,stamp⟩ : Account)
          pure (id,some 0)
      h credited) := by
  refine Twins.account least fun payee known => ?_
  cases payee with
  | some account => exact rest account.pkAccountId account.fioBalanceSuf (known account rfl)
  | none =>
    refine .bind openedTwins fun id _ ⟨known,same⟩ => ?_
    subst same
    exact rest id (some 0) known

theorem insTokenTransfersTwins (least : server.Least) {x b a : Option Int} {p q k w : Option String}
    {t : Option Timestamp} :
    Twins f (insTokenTransfers server x b p q a k w t)
      (insTokenTransfers server (x.map (f.ids .transactions)) b p q a k w t) := by
  refine .guarded (Twins.account least fun payer known => ?_)
  have balance : (payer.map (renumber f.ids .accounts)).bind Account.fioBalanceSuf = payer.bind Account.fioBalanceSuf := by
    cases payer <;> rfl
  have number : (payer.map (renumber f.ids .accounts)).map Account.pkAccountId =
      (payer.map Account.pkAccountId).map (f.ids .accounts) := by
    cases payer <;> rfl
  have stored : ∀ k, payer.map Account.pkAccountId = some k → f.known .accounts k := by
    intro k given
    obtain ⟨r,found,rfl⟩ := Option.map_eq_some_iff.mp given
    exact known r found
  simp only [balance, number]
  refine Twins.toBigint fun debited => .ite Iff.rfl (fun _ => .raise) fun _ => ?_
  refine .bind (Twins.updateAt .accounts rfl (fun _ => rfl) (payer.map Account.pkAccountId) stored (fun _ => rfl)
    (fun _ => rfl) fun _ => rfl) fun _ _ _ => ?_
  refine payeeTwins least fun id amount known => ?_
  refine Twins.toBigint fun paid => .ite Iff.rfl (fun _ => .raise) fun _ => ?_
  refine .bind (Twins.updateAt .accounts rfl (fun _ => rfl) (some id) (fun k given => by cases given; exact known)
    (fun _ => rfl) (fun _ => rfl) fun _ => rfl) fun _ _ _ => ?_
  exact Twins.oneOf fun _ => Twins.inserted rfl (fun _ => rfl) (fun _ => rfl) fun _ => rfl

theorem insTokenStakingsTwins (least : server.Least) {x b a : Option Int} {n : Option String} :
    Twins f (insTokenStakings server x b n a) (insTokenStakings server (x.map (f.ids .transactions)) b n a) := by
  refine .guarded (Twins.account least fun found _ => ?_)
  exact Twins.inserted rfl (fun _ => by cases found <;> rfl) (fun _ => rfl) fun _ => rfl

theorem getAccountPubKeyAndIdTwins {n : Option String} :
    Twins f (Call.run server (.getAccountPubKeyAndId n)) (Call.run server (.getAccountPubKeyAndId n)) := by
  refine .reads fun s t _ v s' ran => ?_
  obtain ⟨_,m,read,last⟩ := bindOk.mp ran
  obtain ⟨_,_,looked,found⟩ := bindOk.mp read
  rw [(pureOk.mp last).2, (pureOk.mp found).2, (getOk.mp looked).2]
  exact ⟨rfl,none,rfl,trivial⟩

end Ledger

section Domains
variable {f : Renaming} {server : Server}

theorem insDomainsTwins (least : server.Least) {b : Option Int} {n o w : Option String} {p : Option Bool}
    {t : Option Timestamp} : Twins f (insDomains server b n o p t w) (insDomains server b n o p t w) := by
  refine .guarded (Twins.account least fun owner _ => Twins.oneOf fun _ => ?_)
  exact Twins.inserted rfl (fun _ => by cases owner <;> rfl) (fun _ => rfl) fun _ => rfl

theorem insDomainActivitiesTwins (least : server.Least) {x b : Option Int} {n k : Option String}
    {t : Option Timestamp} : Twins f (insDomainActivities server x b n k t)
      (insDomainActivities server (x.map (f.ids .transactions)) b n k t) := by
  refine .guarded (Twins.domain least fun found _ => Twins.oneOf fun _ => ?_)
  exact Twins.inserted rfl (fun _ => by cases found <;> rfl) (fun _ => rfl) fun _ => rfl

theorem updDomainExpTwins (least : server.Least) {n : Option String} {t : Option Timestamp} :
    Twins f (updDomainExp server n t) (updDomainExp server n t) :=
  Twins.domain least fun _ known =>
    Twins.rewritten .domains rfl (fun _ => rfl) known (fun _ => rfl) (fun _ => rfl) fun _ => rfl

theorem updDomainIsPublicTwins (least : server.Least) {n : Option String} {p : Option Bool} :
    Twins f (updDomainIsPublic server n p) (updDomainIsPublic server n p) :=
  Twins.domain least fun _ known =>
    Twins.rewritten .domains rfl (fun _ => rfl) known (fun _ => rfl) (fun _ => rfl) fun _ => rfl

theorem updDomainOwnerTwins (least : server.Least) {n o : Option String} :
    Twins f (updDomainOwner server n o) (updDomainOwner server n o) :=
  Twins.domain least fun _ known => Twins.account least fun owner _ =>
    Twins.rewritten .domains rfl (fun _ => rfl) known (fun _ => by cases owner <;> rfl) (fun _ => rfl) fun _ => rfl

theorem updDomainBurntTwins {n : Option String} : Twins f (updDomainBurnt n) (updDomainBurnt n) := by
  refine .bind (Twins.update .domains rfl (fun r r' twin => ?_) (fun r r' twin _ => ?_) (fun r r' twin still => ?_)
    fun _ => rfl) fun _ _ _ => .pure trivial
  · obtain ⟨_,rfl⟩ := twinWhole (fun _ => rfl) twin
    rfl
  · obtain ⟨known,rfl⟩ := twinWhole (fun _ => rfl) twin
    exact twinRenumbered (u := .domains) (numberedListed rfl) known
  · obtain ⟨_,rfl⟩ := twinWhole (fun _ => rfl) twin
    exact congrArg (renumber f.ids .domains) still

end Domains

section Handles
variable {f : Renaming} {server : Server}

theorem insUpdHandlesTwins (least : server.Least) {b : Option Int} {d o h k w : Option String} {i : Option Bool}
    {t : Option Timestamp} : Twins f (insUpdHandles server b d o h k i t w) (insUpdHandles server b d o h k i t w) := by
  refine .guarded (Twins.account least fun owner _ => Twins.domain least fun domain _ => ?_)
  refine Twins.handle least fun found known => Twins.oneOf fun _ => ?_
  cases found with
  | none => exact Twins.inserted rfl (fun _ => by cases owner <;> cases domain <;> rfl) (fun _ => rfl) fun _ => rfl
  | some row =>
    have stored : ∀ k, some row.pkHandleId = some k → f.known .handles k :=
      fun k same => by cases same; exact known row rfl
    exact .bind (Twins.updateAt .handles rfl (fun _ => rfl) (some row.pkHandleId) stored
      (fun _ => by cases owner <;> cases domain <;> rfl) (fun _ => rfl) fun _ => rfl) fun _ _ _ =>
        Twins.answer rfl stored rfl

theorem updHandlesXferOwnerTwins (least : server.Least) {b : Option Int} {h o k : Option String} {i : Option Bool} :
    Twins f (updHandlesXferOwner server b h o k i) (updHandlesXferOwner server b h o k i) := by
  refine Twins.handle least fun found known => Twins.account least fun owner stored => ?_
  refine .bind (Twins.toInt (u := .accounts) rfl (fun k given => ?_) (by cases owner <;> rfl)) fun id _ same => ?_
  · obtain ⟨r,same,rfl⟩ := Option.map_eq_some_iff.mp given
    exact stored r same
  · subst same
    exact Twins.rewritten .handles rfl (fun _ => rfl) known (fun _ => rfl) (fun _ => rfl) fun _ => rfl

theorem updHandlesEncryptKeyTwins (least : server.Least) {b : Option Int} {h k : Option String} :
    Twins f (updHandlesEncryptKey server b h k) (updHandlesEncryptKey server b h k) := by
  refine Twins.handle least fun found known => ?_
  have flag : (found.map (renumber f.ids .handles)).bind Handle.isEncryptKeySet = found.bind Handle.isEncryptKeySet := by
    cases found <;> rfl
  have stored : ∀ k, found.map Handle.pkHandleId = some k → f.known .handles k := by
    intro k given
    obtain ⟨r,same,rfl⟩ := Option.map_eq_some_iff.mp given
    exact known r same
  simp only [flag]
  refine .ite Iff.rfl (fun _ => ?_) fun _ => Twins.answer rfl stored (by cases found <;> rfl)
  exact Twins.rewritten .handles rfl (fun _ => rfl) known (fun _ => rfl) (fun _ => rfl) fun _ => rfl

theorem updHandlesSetEncryptKeyTwins (least : server.Least) {b : Option Int} {h k : Option String} :
    Twins f (updHandlesSetEncryptKey server b h k) (updHandlesSetEncryptKey server b h k) :=
  Twins.handle least fun _ known =>
    Twins.rewritten .handles rfl (fun _ => rfl) known (fun _ => rfl) (fun _ => rfl) fun _ => rfl

theorem updHandlesStatusTwins (least : server.Least) {b : Option Int} {h v : Option String} :
    Twins f (updHandlesStatus server b h v) (updHandlesStatus server b h v) := by
  refine Twins.handle least fun found known => ?_
  cases found with
  | none => exact Twins.answer (u := .handles) rfl (fun _ absent => by cases absent) rfl
  | some row =>
    have stored : ∀ k, some row.pkHandleId = some k → f.known .handles k :=
      fun k same => by cases same; exact known row rfl
    exact Twins.oneOf fun _ => .bind (Twins.updateAt .handles rfl (fun _ => rfl) (some row.pkHandleId) stored
      (fun _ => rfl) (fun _ => rfl) fun _ => rfl) fun _ _ _ => Twins.answer rfl stored rfl

theorem updHandleBurntTwins (least : server.Least) {b : Option Int} {h : Option String} :
    Twins f (updHandleBurnt server b h) (updHandleBurnt server b h) := by
  refine Twins.handle least fun found known => ?_
  cases found with
  | none => exact .pure trivial
  | some row =>
    exact .bind (Twins.updateAt .handles rfl (fun _ => rfl) (some row.pkHandleId)
      (fun k same => by cases same; exact known row rfl) (fun _ => rfl) (fun _ => rfl) fun _ => rfl) fun _ _ _ =>
        .pure trivial

theorem insHandleActivitiesTwins (least : server.Least) {x b : Option Int} {h k : Option String}
    {t : Option Timestamp} : Twins f (insHandleActivities server x b h k t)
      (insHandleActivities server (x.map (f.ids .transactions)) b h k t) := by
  refine .guarded (Twins.handle least fun found _ => Twins.oneOf fun _ => ?_)
  exact Twins.inserted rfl (fun _ => by cases found <;> rfl) (fun _ => rfl) fun _ => rfl

end Handles

section Requests
variable {f : Renaming} {server : Server}

theorem insFioRequestsTwins (least : server.Least) {x b q : Option Int} {p r v : Option String} {c : Option Bytes}
    {t : Option Timestamp} : Twins f (insFioRequests server x b q p r c v t)
      (insFioRequests server (x.map (f.ids .transactions)) b q p r c v t) := by
  refine .guarded (Twins.handle least fun payer _ => Twins.handle least fun payee _ => ?_)
  have payerKey : (payer.map (renumber f.ids .handles)).bind Handle.encryptionKey = payer.bind Handle.encryptionKey := by
    cases payer <;> rfl
  have payeeKey : (payee.map (renumber f.ids .handles)).bind Handle.encryptionKey = payee.bind Handle.encryptionKey := by
    cases payee <;> rfl
  simp only [payerKey, payeeKey]
  refine Twins.oneOf fun _ => Twins.inserted rfl (fun _ => ?_) (fun _ => rfl) fun _ => rfl
  cases payer <;> cases payee <;> rfl

structure SameRequest (f : Renaming) (r r' : FioRequest) : Prop where
  known : f.known .fioRequests r.pkFioRequestsId
  number : r'.pkFioRequestsId = f.ids .fioRequests r.pkFioRequestsId
  chain : r'.fioChainRequestId = r.fioChainRequestId
  payee : r'.fkPayeeHandleId = r.fkPayeeHandleId.map (f.ids .handles)

theorem requestTwin {r r' : FioRequest} (twin : f.matching.twin .fioRequests r r') : SameRequest f r r' := by
  obtain ⟨known,same,_⟩ := twin
  have column : ∀ {β : Type} (read : FioRequest → β), read (shown .fioRequests r') =
      read (shown .fioRequests (renumber f.ids .fioRequests r)) := fun read => congrArg read same
  exact ⟨known,column FioRequest.pkFioRequestsId,column FioRequest.fioChainRequestId,column FioRequest.fkPayeeHandleId⟩

theorem requestFound (least : server.Least) {q : Option Int} :
    Follows f.matching (Option.Rel (f.matching.twin .fioRequests))
      (select server .fioRequests fun r => same r.fioChainRequestId q)
      (select server .fioRequests fun r => same r.fioChainRequestId q) := by
  refine Follows.select (numberedListed rfl) (least _) fun r r' twin => ?_
  have chain := (requestTwin twin).chain
  simp only [chain]

theorem updFioRequestsStatusTwins (least : server.Least) {q : Option Int} {v : Option String} :
    Twins f (updFioRequestsStatus server q v) (updFioRequestsStatus server q v) := by
  refine .bind (requestFound least) fun found found' related => ?_
  cases related with
  | none => exact .pure trivial
  | some twin =>
    have own := requestTwin twin
    refine Twins.oneOf fun status => .bind (Twins.update .fioRequests rfl (fun r r' twin' => ?_) (fun r r' twin' _ => ?_)
      (fun r r' twin' still => ?_) fun _ => rfl) fun _ _ _ =>
        Twins.answer (u := .fioRequests) rfl (fun k given => ?_) (congrArg some own.number)
    · have other := requestTwin twin'
      rw [other.number, own.number]
      exact idSame (numberedListed rfl) other.known own.known
    · exact ⟨twin'.1,congrArg (fun r : FioRequest => { r with requestStatus := status }) twin'.2.1,twin'.2.2⟩
    · have status' : r'.requestStatus = status :=
        (congrArg FioRequest.requestStatus twin'.2.1).trans (congrArg FioRequest.requestStatus still).symm
      rw [← status']
    · cases given
      exact own.known

theorem insHandleActivitiesFioRequestTwins (least : server.Least) {x b q : Option Int} {k : Option String}
    {t : Option Timestamp} : Twins f (insHandleActivitiesFioRequest server x b q k t)
      (insHandleActivitiesFioRequest server (x.map (f.ids .transactions)) b q k t) := by
  refine .guarded (.bind (requestFound least) fun found found' related => ?_)
  have payee : found'.bind FioRequest.fkPayeeHandleId = (found.bind FioRequest.fkPayeeHandleId).map (f.ids .handles) := by
    cases related with
    | none => rfl
    | some twin => exact (requestTwin twin).payee
  simp only [payee]
  exact Twins.oneOf fun _ => Twins.inserted rfl (fun _ => rfl) (fun _ => rfl) fun _ => rfl

end Requests

namespace Call

def transactionArgument : Call → Option Int
  | insTraces x .. | insAccountActivities x .. | insAccountActivitiesHandle x .. | insTokenTransfers x ..
  | insTokenStakings x .. | insDomainActivities x .. | insHandleActivities x .. | insFioRequests x ..
  | insFioDatas x .. | insHandleActivitiesFioRequest x .. => x
  | _ => none

def renamed (ids : Int → Int) : Call → Call
  | insTraces x b ac rc o a q t => insTraces (x.map ids) b ac rc o a q t
  | insAccountActivities x b a k => insAccountActivities (x.map ids) b a k
  | insAccountActivitiesHandle x b h k => insAccountActivitiesHandle (x.map ids) b h k
  | insTokenTransfers x b p q a k m t => insTokenTransfers (x.map ids) b p q a k m t
  | insTokenStakings x b n a => insTokenStakings (x.map ids) b n a
  | insDomainActivities x b n k t => insDomainActivities (x.map ids) b n k t
  | insHandleActivities x b h k t => insHandleActivities (x.map ids) b h k t
  | insFioRequests x b q p r c v t => insFioRequests (x.map ids) b q p r c v t
  | insFioDatas x b q p r c v t => insFioDatas (x.map ids) b q p r c v t
  | insHandleActivitiesFioRequest x b q k t => insHandleActivitiesFioRequest (x.map ids) b q k t
  | c => c

def aside : Call → Bool
  | insUpdPubAddresses .. | delPubAddress .. | delPubAddresses .. | clearPubAddresses .. | existsPubAddress ..
  | insUpdNftSignatures .. | delNftSignature .. | delNftSignatures .. | insFioDatas .. => true
  | _ => false

def isFork : Call → Bool
  | rbFork _ => true
  | _ => false

end Call

theorem callTwins {f : Renaming} {server : Server} (least : server.Least) {c : Call} (shared : c.aside = false)
    (forward : c.isFork = false) :
    Twins f (c.run server) ((c.renamed (f.ids .transactions)).run server) := by
  cases c with
  | insBlocks => exact insBlocksTwins
  | insUpdAccounts => exact insUpdAccountsTwins least
  | insTransactions => exact insTransactionsTwins least
  | insTraces => exact insTracesTwins least
  | insAccountActivities => exact insAccountActivitiesTwins least
  | insAccountActivitiesHandle => exact insAccountActivitiesHandleTwins least
  | insTokenTransfers => exact insTokenTransfersTwins least
  | insTokenStakings => exact insTokenStakingsTwins least
  | getAccountPubKeyAndId => exact getAccountPubKeyAndIdTwins
  | insDomains => exact insDomainsTwins least
  | insDomainActivities => exact insDomainActivitiesTwins least
  | updDomainExp => exact updDomainExpTwins least
  | updDomainIsPublic => exact updDomainIsPublicTwins least
  | updDomainOwner => exact updDomainOwnerTwins least
  | updDomainBurnt => exact updDomainBurntTwins
  | insUpdHandles => exact insUpdHandlesTwins least
  | updHandlesRenewBundles => exact .throw
  | updHandlesAddBundles => exact .throw
  | updHandlesXferOwner => exact updHandlesXferOwnerTwins least
  | updHandlesEncryptKey => exact updHandlesEncryptKeyTwins least
  | updHandlesSetEncryptKey => exact updHandlesSetEncryptKeyTwins least
  | updHandlesStatus => exact updHandlesStatusTwins least
  | updHandleBurnt => exact updHandleBurntTwins least
  | insHandleActivities => exact insHandleActivitiesTwins least
  | insFioRequests => exact insFioRequestsTwins least
  | updFioRequestsStatus => exact updFioRequestsStatusTwins least
  | insHandleActivitiesFioRequest => exact insHandleActivitiesFioRequestTwins least
  | rbFork => cases forward
  | _ => cases shared

def untouched : List TableName := followed ++ trailing

def Leaves {α : Type} (x : Proc α) : Prop := ∀ s v s', x s = .ok (v,s') → ∀ t ∈ untouched, s' t = s t

namespace Leaves
variable {α β : Type} {server : Server}

theorem reads {x : Proc α} (read : ∀ s v s', x s = .ok (v,s') → s' = s) : Leaves x := by
  intro s v s' ran t _
  rw [read s v s' ran]

theorem pure {a : α} : Leaves (pure a : Proc α) := reads fun _ _ _ ran => (pureOk.mp ran).2

theorem throw {e : Error} : Leaves (throw e : Proc α) := fun _ _ _ ran => absurd ran throwOk

theorem toInt {n : Option Int} : Leaves (toInt n) := reads fun _ _ _ ran => (toIntOk.mp ran).2.1

theorem bind {x : Proc α} {g : α → Proc β} (first : Leaves x) (rest : ∀ a, Leaves (g a)) : Leaves (x >>= g) := by
  intro s v s' ran t listed
  obtain ⟨a,m,ran,ran'⟩ := bindOk.mp ran
  rw [rest a m v s' ran' t listed, first s a m ran t listed]

theorem guarded {b : Option Int} {k : α} {x : Proc α} (rest : Leaves x) :
    Leaves (if below b (some 0) then return k else x) := by
  split
  · exact pure
  · exact rest

theorem select {u : TableName} {p : Row u → Bool} : Leaves (select server u p) :=
  reads fun _ _ _ ran => (selectIntoOk.mp ran).2

theorem oneOf {allowed : List String} {text : Option String} : Leaves (oneOf (S := relic) allowed text) :=
  reads fun _ _ _ ran => (oneOfOk.mp ran).2

theorem handleId {name : Option String} : Leaves (handleId server name) := bind select fun _ => pure

theorem insert {u : TableName} (apart : u ∉ untouched) {row : Int → Row u} : Leaves (insertInto (S := relic) u row) := by
  intro s v s' ran t listed
  obtain ⟨_,rfl,_⟩ := insertIntoOk.mp ran
  have other : t ≠ u := fun same => apart (same ▸ listed)
  exact Database.appendOther _ other _

theorem asideApart {a : Audited} (apart : a.table ∉ followed) : ∀ t ∈ untouched, t ≠ a.table ∧ t ≠ a.log := by
  cases a <;> first
    | decide
    | exact absurd (by decide) apart

theorem update (a : Audited) (apart : a.table ∉ followed) {p : Row a.table → Bool} {assign : Row a.table → Row a.table} :
    Leaves (update a.table p assign) := by
  intro s v s' ran t listed
  obtain ⟨entries,_,rfl,_⟩ := updateWrites ran
  obtain ⟨table,log⟩ := asideApart apart t listed
  rw [Database.appendOther _ log, Database.withRowsOther _ table]

theorem delete (a : Audited) (deletes : a.deletes = true) {p : Row a.table → Bool} : Leaves (delete a.table p) := by
  intro s v s' ran t listed
  obtain ⟨entries,_,rfl,_⟩ := deleteWrites deletes ran
  have apart : a.table ∉ followed := by
    cases a <;> first
      | decide
      | cases deletes
  obtain ⟨table,log⟩ := asideApart apart t listed
  rw [Database.appendOther _ log, Database.withRowsOther _ table]

end Leaves

theorem callLeaves {server : Server} {c : Call} (aside : c.aside = true) : Leaves (c.run server) := by
  cases c with
  | insUpdPubAddresses =>
    refine .guarded (.bind .handleId fun _ => .bind .select fun found => ?_)
    cases found with
    | none => exact .bind (.insert (by decide)) fun _ => .toInt
    | some row => exact .bind (.update .pubAddresses (by decide)) fun _ => .toInt
  | delPubAddress => exact .bind .handleId fun _ => .bind (.delete .pubAddresses rfl) fun _ => .pure
  | delPubAddresses => exact .bind .handleId fun _ => .bind (.delete .pubAddresses rfl) fun _ => .pure
  | clearPubAddresses => exact .bind .handleId fun _ => .bind (.delete .pubAddresses rfl) fun _ => .pure
  | existsPubAddress => exact .bind .handleId fun _ => .throw
  | insUpdNftSignatures =>
    refine .guarded (.bind .handleId fun _ => .bind .select fun found => ?_)
    cases found with
    | none => exact .bind (.insert (by decide)) fun _ => .toInt
    | some row => exact .bind (.update .nftSignatures (by decide)) fun _ => .toInt
  | delNftSignature => exact .bind .handleId fun _ => .bind (.delete .nftSignatures rfl) fun _ => .pure
  | delNftSignatures => exact .bind .handleId fun _ => .bind (.delete .nftSignatures rfl) fun _ => .pure
  | insFioDatas =>
    refine .guarded (.bind .select fun _ => .bind .select fun _ => .bind .select fun _ => .bind .select fun _ => ?_)
    exact .bind .oneOf fun _ => .bind (.insert (by decide)) fun _ => .toInt
  | _ => cases aside

theorem asideFootprint {c : Call} (aside : c.aside = true) : ∀ t ∈ untouched, t ∉ c.footprint := by
  cases c <;> first
    | (cases aside; done)
    | (simp only [Call.footprint]; decide)

def transactionColumn : (u : TableName) → Row u → Option Int
  | .traces => Trace.fkTransactionId
  | .accountActivities => AccountActivity.fkTransactionId
  | .domainActivities => DomainActivity.fkTransactionId
  | .handleActivities => HandleActivity.fkTransactionId
  | .tokenTransfers => TokenTransfer.fkTransactionId
  | .tokenStakings => TokenStaking.fkTransactionId
  | .fioRequests => FioRequest.fkTransactionId
  | .fioDatas => FioData.fkTransactionId
  | _ => fun _ => none

theorem transactionStored {s : DB} (valid : s.Valid) {u : TableName} {r : Row u} (mem : r ∈ (s u).rows) :
    Database.Resolves s .transactions (transactionColumn u r) := by
  have column : (∀ r, transactionColumn u r = none) ∨
      (⟨transactionColumn u,.transactions⟩ : Reference TableName (Row u)) ∈ references u := by
    cases u <;> simp [references, transactionColumn]
  rcases column with absent | listed
  · rw [absent]
    trivial
  · exact valid.resolves listed mem

def Stores {α : Type} (x : Option Int) (p : Proc α) : Prop :=
  ∀ s v s', p s = .ok (v,s') → Database.Resolves s' .transactions x

namespace Stores
variable {α β : Type} {x : Option Int}

theorem later {p : Proc α} {g : α → Proc β} (rest : ∀ a, Stores x (g a)) : Stores x (p >>= g) := by
  intro s v s' ran
  obtain ⟨a,m,_,ran'⟩ := bindOk.mp ran
  exact rest a m v s' ran'

theorem ite {c : Prop} [Decidable c] {p q : Proc α} (yes : c → Stores x p) (no : ¬c → Stores x q) :
    Stores x (if c then p else q) := by
  split
  · exact yes (by assumption)
  · exact no (by assumption)

theorem guarded {b : Option Int} {k : α} {p : Proc α} (dated : below b (some 0) = false) (rest : Stores x p) :
    Stores x (if below b (some 0) then return k else p) :=
  ite (fun negative => by rw [dated] at negative; cases negative) fun _ => rest

theorem raise {e : Error} {g : α → Proc β} : Stores x (MonadExcept.throw e >>= g) := fun _ _ _ ran => absurd ran raiseOk

theorem inserted {u : TableName} {row : Int → Row u} (given : ∀ k, transactionColumn u (row k) = x) :
    Stores x (do
      let pkid ← insertInto (S := relic) u row
      toInt (some pkid)) := by
  intro s v s' ran
  obtain ⟨k,m,stored,last⟩ := bindOk.mp ran
  obtain ⟨_,rfl,_⟩ := toIntOk.mp last
  obtain ⟨_,rfl,valid⟩ := insertIntoOk.mp stored
  have mem : row (s u).next ∈ ((s.append u [row (s u).next]) u).rows := by
    rw [Database.appendSame]
    exact List.mem_append_right _ List.mem_cons_self
  have found := transactionStored valid mem
  rwa [given] at found

end Stores

theorem systemAccountStores {server : Server} {x b : Option Int} {name : Option String} {stamp : Option Timestamp}
    {g : Option Int → Proc (Option Int)} (rest : ∀ id, Stores x (g id)) :
    Stores x (withActor server b name stamp g) := by
  refine .later fun found => ?_
  cases found with
  | some account => exact .later rest
  | none =>
    exact .ite (fun _ => .later fun _ => .later rest) fun _ =>
      .ite (fun _ => .later fun _ => .later rest) fun _ => .later rest

theorem callStores {server : Server} {c : Call} {b : Option Int} (argument : c.blockArgument = some b)
    (dated : below b (some 0) = false) : Stores c.transactionArgument (c.run server) := by
  cases c <;> cases argument
  case insTraces =>
    refine .guarded dated (.later fun found => ?_)
    cases found with
    | some account => exact .later fun _ => systemAccountStores fun _ => .inserted (u := .traces) fun _ => rfl
    | none =>
      exact .ite (fun _ => .later fun _ => systemAccountStores fun _ => .inserted (u := .traces) fun _ => rfl) fun _ =>
        .later fun _ => systemAccountStores fun _ => .inserted (u := .traces) fun _ => rfl
  case insTokenTransfers =>
    refine .guarded dated (.later fun _ => .later fun _ => .ite (fun _ => .raise) fun _ => .later fun _ => ?_)
    refine .later fun payee => ?_
    cases payee with
    | some account =>
      exact .later fun _ => .later fun _ => .ite (fun _ => .raise) fun _ => .later fun _ => .later fun _ =>
        .inserted (u := .tokenTransfers) fun _ => rfl
    | none =>
      exact .later fun _ => .later fun _ => .later fun _ => .ite (fun _ => .raise) fun _ => .later fun _ => .later fun _ =>
        .inserted (u := .tokenTransfers) fun _ => rfl
  case insAccountActivities =>
    exact .guarded dated (.later fun _ => .later fun _ => .inserted (u := .accountActivities) fun _ => rfl)
  case insAccountActivitiesHandle =>
    exact .guarded dated (.later fun _ => .later fun _ => .inserted (u := .accountActivities) fun _ => rfl)
  case insTokenStakings => exact .guarded dated (.later fun _ => .inserted (u := .tokenStakings) fun _ => rfl)
  case insDomainActivities =>
    exact .guarded dated (.later fun _ => .later fun _ => .inserted (u := .domainActivities) fun _ => rfl)
  case insHandleActivities =>
    exact .guarded dated (.later fun _ => .later fun _ => .inserted (u := .handleActivities) fun _ => rfl)
  case insFioRequests =>
    exact .guarded dated (.later fun _ => .later fun _ => .later fun _ => .inserted (u := .fioRequests) fun _ => rfl)
  case insFioDatas =>
    exact .guarded dated (.later fun _ => .later fun _ => .later fun _ => .later fun _ => .later fun _ =>
      .inserted (u := .fioDatas) fun _ => rfl)
  case insHandleActivitiesFioRequest =>
    exact .guarded dated (.later fun _ => .later fun _ => .inserted (u := .handleActivities) fun _ => rfl)
  all_goals exact fun _ _ _ _ => trivial

end FioRelic

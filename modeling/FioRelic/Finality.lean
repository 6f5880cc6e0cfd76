import FioRelic.Footprints
import FioRelic.Lasting
import FioRelic.Restore

/-! What is below every later fork is final. A property that no call without a fork breaks,
and that comes back with the tables, is kept while all forks stay above the head it was
first seen at. So what was recorded up to there is not forgotten, save three columns of the FIO
requests and the NFT signatures, and a burnt domain stays burnt. -/
namespace FioRelic
open Relational Versioning

structure Holds (P : DB → Prop) (head : Option Int) (n : Node) : Prop where
  now : P n.db
  before : ∀ p ∈ n.before, atLeast head (some p.1) = false → P p.2

structure Permanent (P : DB → Prop) : Prop where
  lost : ∀ (s : DB) (drawn : TableName → Nat), P s → P (s.skip drawn)
  call : ∀ (e : Event) (s s' : DB) (v : Option Int), Kempt s → e.call.forks = none →
    e.call.run e.server s = .ok (v,s') → P s → P s'
  block : ∀ (s : DB) (block : Block), P s → P (s.append .blocks [block])
  back : ∀ s' s₀ : DB, Restored s' s₀ → P s₀ → P s'

section Permanence
variable {P : DB → Prop} {n n' : Node} {e : Event} {head : Option Int} {b : Int}

theorem Holds.cut (held : Holds P head n) (above : atLeast head (some b) = false) : P (n.beforeBlock b) := by
  unfold Node.beforeBlock
  cases found : n.before.find? fun p => decide (b ≤ p.1) with
  | none => exact held.now
  | some p =>
    have later : b ≤ p.1 := by simpa using List.find?_some found
    refine held.before p (List.mem_of_find?_eq_some found) ?_
    cases head with
    | none => rfl
    | some m =>
      simp only [atLeastSome, decide_eq_false_iff_not] at above ⊢
      omega

theorem holdsMoved (permanent : Permanent P) (sound : Sound n) (move : Moved n e n')
    (above : ∀ b, e.call.forks = some b → atLeast head (some b) = false) (held : Holds P head n) :
    Holds P head n' := by
  cases move with
  | lost drawn => exact ⟨permanent.lost n.db drawn held.now,held.before⟩
  | changed s' v ordinary atHead ran changes =>
    have forward : e.call.forks = none := by
      cases given : e.call <;> first | rfl | (rw [given] at ordinary; cases ordinary)
    exact ⟨permanent.call e n.db s' v sound.kempt forward ran held.now,held.before⟩
  | grown block _ valid =>
    refine ⟨permanent.block n.db block held.now,fun p mem past => ?_⟩
    rcases List.mem_append.mp mem with old | new
    · exact held.before p old past
    · obtain rfl := List.mem_singleton.mp new
      exact held.now
  | forked b s' v nonneg call ran =>
    have past := above b (by rw [call, Call.forks])
    exact ⟨permanent.back s' _ (forkRestores sound nonneg ran) (held.cut past),
      fun p mem => held.before p (List.mem_filter.mp mem).1⟩

theorem holdsHead (standing : Standing n) (now : P n.db) : Holds P (DB.head n.db) n := by
  refine ⟨now,fun p mem past => ?_⟩
  have stored : p.1 ∈ DB.blockNumbers n.db := standing.stack ▸ List.mem_map_of_mem mem
  obtain ⟨m,top,le⟩ := headAtLeast stored
  rw [top, atLeastSome, decide_eq_false_iff_not] at past
  exact absurd le past

theorem permanentRun (permanent : Permanent P) {early late : List Event} (order : ChainOrder (early ++ late))
    (above : ∀ e ∈ late, ∀ b, e.call.forks = some b → atLeast (DB.head (run early).db) (some b) = false)
    (now : P (run early).db) : P (run (early ++ late)).db := by
  obtain ⟨before,after⟩ := meetsAppend order
  have along : ∀ n, Sound n → MeetsFrom (fun n e => e.call.InOrder n.db) n late →
      Holds P (DB.head (run early).db) n → P (runFrom n late).db := by
    clear order before after
    induction late with
    | nil => exact fun n _ _ held => held.now
    | cons e rest ih =>
      intro n sound ⟨first,later⟩ held
      have move := moved sound.toStanding first
      refine ih (fun e' mem => above e' (List.mem_cons_of_mem _ mem)) (n.step e) (soundMoved sound move) later ?_
      exact holdsMoved permanent sound move (above e List.mem_cons_self) held
  rw [runAppend]
  have sound := soundRun before
  exact along _ sound after (holdsHead sound.toStanding now)

end Permanence

def StaysBurnt (s s' : DB) : Prop := ∀ r ∈ (s .domains).rows, r.domainStatus.text = "burnt" →
  ∃ r' ∈ (s' .domains).rows, r'.pkDomainId = r.pkDomainId ∧ r'.domainName = r.domainName ∧
    r'.domainStatus.text = "burnt"

namespace StaysBurnt
variable {s m s' : DB} {server : Server} {v : Option Int}

theorem grown (kept : (s .domains).rows ⊆ (s' .domains).rows) : StaysBurnt s s' :=
  fun r mem status => ⟨r,kept mem,rfl,rfl,status⟩

theorem trans (early : StaysBurnt s m) (late : StaysBurnt m s') : StaysBurnt s s' := by
  intro r mem status
  obtain ⟨r₁,mem₁,number₁,name₁,status₁⟩ := early r mem status
  obtain ⟨r₂,mem₂,number₂,name₂,status₂⟩ := late r₁ mem₁ status₁
  exact ⟨r₂,mem₂,number₂.trans number₁,name₂.trans name₁,status₂⟩

theorem updated {p : Domain → Bool} {assign : Domain → Domain}
    (ran : update .domains p assign s = .ok ((),s'))
    (assigns : ∀ r, (assign r).pkDomainId = r.pkDomainId ∧ (assign r).domainName = r.domainName ∧
      (r.domainStatus.text = "burnt" → (assign r).domainStatus.text = "burnt")) : StaysBurnt s s' := by
  obtain ⟨entries,_,rfl,_⟩ := updateWrites (a := .domains) ran
  intro r mem status
  refine ⟨assigned p assign r,?_,?_⟩
  · rw [Database.appendOther _ (by decide), Database.withRowsSame]
    exact List.mem_map_of_mem mem
  · obtain ⟨number,name,kept⟩ := assigns r
    unfold assigned
    split
    · exact ⟨number,name,kept status⟩
    · exact ⟨rfl,rfl,status⟩

theorem updatedById {p : Domain → Bool} {assign : Domain → Domain} {n : Option Int}
    (ran : (update .domains p assign >>= fun _ => toInt n) s = .ok (v,s'))
    (assigns : ∀ r, (assign r).pkDomainId = r.pkDomainId ∧ (assign r).domainName = r.domainName ∧
      (r.domainStatus.text = "burnt" → (assign r).domainStatus.text = "burnt")) : StaysBurnt s s' := by
  obtain ⟨_,_,wrote,back⟩ := bindOk.mp ran
  obtain ⟨_,rfl,_⟩ := toIntOk.mp back
  exact updated wrote assigns

theorem inserted {b : Option Int} {d o k : Option String} {u : Option Bool} {t : Option Timestamp}
    (ran : insDomains server b d o u t k s = .ok (v,s')) : StaysBurnt s s' := by
  unfold insDomains at ran
  split at ran
  · obtain ⟨_,rfl⟩ := pureOk.mp ran
    exact grown (List.Subset.refl _)
  · obtain ⟨_,_,owner,valued⟩ := bindOk.mp ran
    obtain ⟨_,rfl⟩ := selectIntoOk.mp owner
    obtain ⟨_,_,status,writes⟩ := bindOk.mp valued
    obtain ⟨_,rfl⟩ := oneOfOk.mp status
    obtain ⟨_,_,stored,back⟩ := bindOk.mp writes
    obtain ⟨_,rfl,_⟩ := toIntOk.mp back
    obtain ⟨_,rfl,_⟩ := insertIntoOk.mp stored
    refine grown ?_
    rw [Database.appendSame]
    exact List.subset_append_left _ _

theorem called {c : Call} (ordinary : c.ordinary = true) (ran : c.run server s = .ok (v,s')) : StaysBurnt s s' := by
  by_cases listed : TableName.domains ∈ c.footprint
  case neg =>
    have same := callFrames c s v s' ran .domains listed
    exact grown (same ▸ List.Subset.refl _)
  cases c with
  | insDomains b d o u t k => exact inserted ran
  | updDomainExp d t =>
    obtain ⟨_,_,found,writes⟩ := bindOk.mp ran
    obtain ⟨_,rfl⟩ := selectIntoOk.mp found
    exact updatedById writes fun r => ⟨rfl,rfl,id⟩
  | updDomainIsPublic d u =>
    obtain ⟨_,_,found,writes⟩ := bindOk.mp ran
    obtain ⟨_,rfl⟩ := selectIntoOk.mp found
    exact updatedById writes fun r => ⟨rfl,rfl,id⟩
  | updDomainOwner d o =>
    obtain ⟨_,_,found,owned⟩ := bindOk.mp ran
    obtain ⟨_,rfl⟩ := selectIntoOk.mp found
    obtain ⟨_,_,owner,writes⟩ := bindOk.mp owned
    obtain ⟨_,rfl⟩ := selectIntoOk.mp owner
    exact updatedById writes fun r => ⟨rfl,rfl,id⟩
  | updDomainBurnt d =>
    obtain ⟨_,_,wrote,last⟩ := bindOk.mp ran
    obtain ⟨_,rfl⟩ := pureOk.mp last
    exact updated wrote fun r => ⟨rfl,rfl,fun _ => rfl⟩
  | rbFork b => cases ordinary
  | _ => simp [Call.footprint] at listed

end StaysBurnt

/- What was recorded up to a head: rows that are stored still or kept by their audit tables, a
public address up to its id, and burnt domains. Of an FIO request the columns that its audit
table has: a fork gives it back without binary_content and its two public keys. NFT signatures
are left out, since a fork does not give them back as they were. -/
structure Final (s s' : DB) : Prop where
  plain : ∀ t : TableName, t.plain = true → (s t).rows <+: (s' t).rows
  logs : ∀ a : Audited, (s a.log).rows <+: (s' a.log).rows
  kept : ∀ a : Audited, a.deletes = false → a ≠ .fioRequests → ∀ r ∈ (s a.table).rows,
    r ∈ (s' a.table).rows ∨ ∃ e ∈ (s' a.log).rows, e ∉ (s a.log).rows ∧ a.row e = r
  requests : ∀ r ∈ (s .fioRequests).rows,
    (∃ r' ∈ (s' .fioRequests).rows, Audited.copied .fioRequests r' = Audited.copied .fioRequests r) ∨
    ∃ e ∈ (s' .fioRequestsAudit).rows, e ∉ (s .fioRequestsAudit).rows ∧
      Audited.row .fioRequests e = Audited.copied .fioRequests r
  addresses : ∀ r ∈ (s .pubAddresses).rows,
    (∃ r' ∈ (s' .pubAddresses).rows, Audited.blank .pubAddresses r' = Audited.blank .pubAddresses r) ∨
    ∃ e ∈ (s' .pubAddressesAudit).rows, e ∉ (s .pubAddressesAudit).rows ∧
      Audited.blank .pubAddresses (Audited.row .pubAddresses e) = Audited.blank .pubAddresses r
  burnt : StaysBurnt s s'

namespace Final
variable {s m s' : DB} {server : Server} {v : Option Int}

theorem refl (s : DB) : Final s s where
  plain := fun _ _ => List.prefix_rfl
  logs := fun _ => List.prefix_rfl
  kept := fun _ _ _ _ mem => Or.inl mem
  requests := fun r mem => Or.inl ⟨r,mem,rfl⟩
  addresses := fun r mem => Or.inl ⟨r,mem,rfl⟩
  burnt := .grown (List.Subset.refl _)

theorem recorded (final : Final s m) (recorded : Recorded m s') (burnt : StaysBurnt m s') : Final s s' where
  plain := fun t plain => (final.plain t plain).trans (recorded.plain t plain)
  logs := fun a => (final.logs a).trans (recorded.logs a)
  kept := by
    intro a keeps other r mem
    rcases final.kept a keeps other r mem with stored | ⟨e,logged,new,row⟩
    · refine (recorded.rows a r stored).imp_right ?_
      rintro ⟨e,logged,new,row⟩
      exact ⟨e,logged,fun old => new ((final.logs a).subset old),row.trans (copiedWhole other r)⟩
    · exact Or.inr ⟨e,(recorded.logs a).subset logged,new,row⟩
  requests := by
    intro r mem
    rcases final.requests r mem with ⟨r',stored,same⟩ | ⟨e,logged,new,row⟩
    · rcases recorded.rows .fioRequests r' stored with stored' | ⟨e,logged,new,row⟩
      · exact Or.inl ⟨r',stored',same⟩
      · exact Or.inr ⟨e,logged,fun old => new ((final.logs .fioRequests).subset old),row.trans same⟩
    · exact Or.inr ⟨e,(recorded.logs .fioRequests).subset logged,new,row⟩
  addresses := by
    intro r mem
    rcases final.addresses r mem with ⟨r',stored,same⟩ | ⟨e,logged,new,row⟩
    · rcases recorded.rows .pubAddresses r' stored with stored' | ⟨e,logged,new,row⟩
      · exact Or.inl ⟨r',stored',same⟩
      · refine Or.inr ⟨e,logged,fun old => new ((final.logs .pubAddresses).subset old),?_⟩
        rw [row]
        exact same
    · exact Or.inr ⟨e,(recorded.logs .pubAddresses).subset logged,new,row⟩
  burnt := final.burnt.trans burnt

theorem lost (final : Final s m) (drawn : TableName → Nat) : Final s (m.skip drawn) :=
  ⟨final.plain,final.logs,final.kept,final.requests,final.addresses,final.burnt⟩

theorem restored (final : Final s m) (restored : Restored s' m) : Final s s' where
  plain := fun t plain => restored.plain t plain ▸ final.plain t plain
  logs := fun a => restored.entries a ▸ final.logs a
  kept := by
    intro a keeps other
    rw [restoredRows restored keeps (copiedWhole other), restored.entries a]
    exact final.kept a keeps other
  requests := by
    intro r mem
    rcases final.requests r mem with ⟨r',stored,same⟩ | logged
    · have back : Audited.copied .fioRequests r' ∈ Audited.seen .fioRequests s' :=
        restored.kept .fioRequests rfl ▸ List.mem_map_of_mem stored
      obtain ⟨r'',stored',same'⟩ := List.mem_map.mp back
      exact Or.inl ⟨r'',stored',same'.trans same⟩
    · rw [restored.entries .fioRequests]
      exact Or.inr logged
  addresses := by
    intro r mem
    rcases final.addresses r mem with ⟨r',stored,same⟩ | logged
    · have back := restored.addresses.mem_iff.mpr (List.mem_map_of_mem stored)
      obtain ⟨r'',stored',same'⟩ := List.mem_map.mp back
      exact Or.inl ⟨r'',stored',same'.trans same⟩
    · rw [restored.entries .pubAddresses]
      exact Or.inr logged
  burnt := by
    have domains := restoredRows restored (a := .domains) rfl fun _ => rfl
    exact final.burnt.trans (.grown (domains ▸ List.Subset.refl _))

theorem block (final : Final s m) (block : Block) : Final s (m.append .blocks [block]) := by
  refine final.recorded (recordedAppend (t := .blocks) [block]) (.grown ?_)
  rw [blockOther (by decide)]
  exact List.Subset.refl _

end Final

theorem finalPermanent (s : DB) : Permanent (Final s) where
  call := by
    intro e m s' v kempt forward ran final
    cases callDoes kempt ran with
    | nothing => exact final
    | block block t i p w call valid => exact final.block block
    | fork b s' nonneg call forked =>
      rw [call] at forward
      cases forward
    | changed s' ordinary changes =>
      exact final.recorded (recordedChanges kempt.serial changes) (.called ordinary ran)
  lost := fun _ drawn final => final.lost drawn
  block := fun _ block final => final.block block
  back := fun _ _ restored final => final.restored restored

theorem finality {early late : List Event} (order : ChainOrder (early ++ late))
    (above : ∀ e ∈ late, ∀ b, e.call.forks = some b → atLeast (DB.head (run early).db) (some b) = false) :
    Final (run early).db (run (early ++ late)).db :=
  permanentRun (finalPermanent _) order above (.refl _)

def settled : List Call := transferred.take 6 ++ [.updDomainBurnt (some "fio")]

def unsettled : List Call := transferred.drop 6 ++ untransferred

theorem finalityUnsettled : Final (run (events settled)).db (run (events settled ++ events unsettled)).db :=
  finality (by decide +kernel) (by decide +kernel)

end FioRelic

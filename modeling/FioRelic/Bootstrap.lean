import FioRelic.Supply

/-! The accounts that a transaction and a trace open on first sight of a name. The two
procedures keep their own copy of the branches; both are compared with `sight`. -/
namespace FioRelic
open Relational Versioning

def opensActor (name : Option String) : Bool :=
  same name fioToken || startsWith name "fio." || startsWith name "eosio."

def sight (b : Option Int) (stamp : Option Timestamp) (name : Option String) (opens : Bool) (s : DB) : DB :=
  if known s name || !opens then s
  else s.append .accounts [⟨(s .accounts).next,b,cut 12 name,some "",openingBalance name,stamp⟩]

def sightBoth (b : Option Int) (stamp : Option Timestamp) (action actor : Option String) (s : DB) : DB :=
  sight b stamp actor (opensActor actor) (sight b stamp action true s)

/- A missing name is looked up whole and stored cut. -/
def Sighted (s : DB) (name : Option String) (opens : Bool) : Prop :=
  known s name = false → opens = true →
    s.Draws .accounts 1 ∧ castable 12 name = true ∧ known s (cut 12 name) = false

def openings (s : DB) (action actor : Option String) : List (Option String) :=
  (if known s action then [] else [action]) ++
    if opensActor actor && !(known s actor || !known s action && same (cut 12 action) actor) then [actor] else []

structure Nameable (s : DB) (action actor : Option String) : Prop where
  named : ∀ name ∈ openings s action actor, castable 12 name = true ∧ known s (cut 12 name) = false
  apart : ((openings s action actor).map (cut 12)).Nodup

structure Openable (s : DB) (action actor : Option String) : Prop extends Nameable s action actor where
  drawn : s.Draws .accounts (openings s action actor).length

def accountNamed (server : Server) (s : DB) (name : Option String) : Option Account :=
  chosen (server.takes .accounts) .accounts (fun r : Account => same r.accountName name) s

def rowKey (s : DB) (t : TableName) (found : Option (Row t)) : Int := found.elim (s t).next (key t)

def accountId (server : Server) (s : DB) (name : Option String) : Int := rowKey s .accounts (accountNamed server s name)

section Sight
variable {server : Server} {s s' : DB} {b : Option Int} {stamp : Option Timestamp} {name : Option String} {opens : Bool}

theorem sightKnown (stored : known s name = true) : sight b stamp name opens s = s := by
  simp [sight, stored]

theorem sightClosed (closed : opens = false) : sight b stamp name opens s = s := by
  simp [sight, closed]

theorem sightOpens (absent : known s name = false) (opening : opens = true) : sight b stamp name opens s =
    s.append .accounts [⟨(s .accounts).next,b,cut 12 name,some "",openingBalance name,stamp⟩] := by
  simp [sight, absent, opening]

theorem sightOther {t : TableName} (other : t ≠ .accounts) : sight b stamp name opens s t = s t := by
  unfold sight
  split
  · rfl
  · exact Database.appendOther _ other _

theorem sightBlocks (stored : s.Resolves .blocks b) : (sight b stamp name opens s).Resolves .blocks b := by
  unfold Database.Resolves Database.keys
  rw [sightOther (by decide)]
  exact stored

theorem sightRows (r : Account) (mem : r ∈ (s .accounts).rows) : r ∈ (sight b stamp name opens s .accounts).rows := by
  unfold sight
  split
  · exact mem
  · rw [Database.appendSame]
    exact List.mem_append_left _ mem

theorem knownSight {x : Option String} : known (sight b stamp name opens s) x =
    (known s x || !known s name && opens && same (cut 12 name) x) := by
  unfold sight
  by_cases closed : (known s name || !opens) = true
  · rw [if_pos closed]
    rcases Bool.or_eq_true _ _ ▸ closed with stored | shut
    · simp [stored]
    · have shut : opens = false := by simpa using shut
      simp [shut]
  · rw [if_neg closed]
    simp only [Bool.or_eq_true, not_or, Bool.not_eq_true, Bool.not_eq_false'] at closed
    simp [known, closed.2, show (s .accounts).rows.any (fun r => same r.accountName name) = false from closed.1]

theorem opensValid (valid : s.Valid) (stored : s.Resolves .blocks b) {balance : Option Int} :
    (s.append .accounts [(⟨(s .accounts).next,b,cut 12 name,some "",balance,stamp⟩ : Account)]).Valid ↔
      s.Draws .accounts 1 ∧ castable 12 name = true ∧ known s (cut 12 name) = false := by
  rw [valid.inserts (t := .accounts) rfl fun ref listed => by rw [List.mem_singleton.mp listed]; exact stored]
  refine and_congr_right fun _ => and_congr ?_ ?_
  · change (∀ c ∈ [(⟨12,Account.accountName⟩ : Varchar Account),⟨53,Account.publicKey⟩], _) ↔ _
    simp only [List.forall_mem_cons, castable]
    exact ⟨fun fits => fits.1,fun fits => ⟨fits,by decide,fun _ none => absurd none List.not_mem_nil⟩⟩
  · change (∀ column ∈ [Account.accountName], _) ↔ _
    simp only [List.mem_singleton, forall_eq]
    rw [knownFalse]
    constructor
    · intro distinct r mem
      rw [← Bool.not_eq_true]
      intro hit
      obtain ⟨text,own,given⟩ := sameTrue.mp hit
      exact distinct r mem text given own
    · intro absent r mem text given own
      have apart := absent r mem
      rw [own, given] at apart
      simp at apart

theorem openBind (valid : s.Valid) (stored : s.Resolves .blocks b) {balance : Option Int} {β : Type}
    {rest : Int → Proc β} {out : β × DB} : (insertInto (S := relic) .accounts (fun pk =>
      (⟨pk,b,cut 12 name,some "",balance,stamp⟩ : Account)) >>= rest) s = .ok out ↔
    (s.Draws .accounts 1 ∧ castable 12 name = true ∧ known s (cut 12 name) = false) ∧
      rest (s .accounts).next (s.append .accounts
        [⟨(s .accounts).next,b,cut 12 name,some "",balance,stamp⟩]) = .ok out := by
  obtain ⟨answer,s'⟩ := out
  rw [bindOk, ← opensValid valid stored]
  constructor
  · rintro ⟨_,_,inserted,ran⟩
    obtain ⟨rfl,rfl,valid'⟩ := insertIntoOk.mp inserted
    exact ⟨valid',ran⟩
  · rintro ⟨valid',ran⟩
    exact ⟨_,_,insertIntoOk.mpr ⟨rfl,rfl,valid'⟩,ran⟩

theorem sightValid (valid : s.Valid) (stored : s.Resolves .blocks b) (sighted : Sighted s name opens) :
    (sight b stamp name opens s).Valid := by
  unfold sight
  split
  · exact valid
  · rename_i missing
    simp only [Bool.or_eq_true, not_or, Bool.not_eq_true, Bool.not_eq_false'] at missing
    exact (opensValid valid stored).mpr (sighted missing.1 missing.2)

theorem namedNone : accountNamed server s name = none ↔ known s name = false := chosenNone.trans knownFalse.symm

theorem namedSome {r : Account} (hit : accountNamed server s name = some r) :
    r ∈ (s .accounts).rows ∧ r.accountName = name ∧ known s name = true := by
  obtain ⟨mem,own⟩ := chosenSome hit
  obtain ⟨text,here,given⟩ := sameTrue.mp own
  exact ⟨mem,by rw [here, given],List.any_eq_true.mpr ⟨r,mem,own⟩⟩

theorem sightNamed (server : Server) (s : DB) (b : Option Int) (stamp : Option Timestamp) (name : Option String)
    (opening : known s name = true ∨ opens = true) : ∃ r ∈ (sight b stamp name opens s .accounts).rows,
      r.pkAccountId = accountId server s name ∧ r.accountName = if known s name then name else cut 12 name := by
  unfold accountId rowKey
  cases hit : accountNamed server s name with
  | some r =>
    obtain ⟨mem,own,stored⟩ := namedSome hit
    rw [if_pos stored]
    exact ⟨r,sightRows r mem,rfl,own⟩
  | none =>
    have absent := namedNone.mp hit
    rw [sightOpens absent (opening.resolve_left (by simp [absent])), Database.appendSame, absent]
    exact ⟨_,List.mem_append_right _ (List.mem_singleton.mpr rfl),rfl,rfl⟩

end Sight

section Procedures
variable {server : Server} {s : DB} {b : Option Int} {stamp : Option Timestamp} {name : Option String}
  {β : Type} {out : β × DB}

theorem actionBind (rest : Int → Proc β) {branch : Proc β} (valid : s.Valid) (stored : s.Resolves .blocks b)
    (opened : known s name = false → branch s = (insertInto (S := relic) .accounts (fun pk =>
      (⟨pk,b,cut 12 name,some "",openingBalance name,stamp⟩ : Account)) >>= rest) s) :
    (select server .accounts (fun r => same r.accountName name) >>= fun action => match action with
      | some account => rest account.pkAccountId
      | none => branch) s = .ok out ↔
    Sighted s name true ∧ rest (accountId server s name) (sight b stamp name true s) = .ok out := by
  rw [lookupRuns]
  change (match accountNamed server s name with
    | some account => rest account.pkAccountId
    | none => branch) s = .ok out ↔ _
  unfold accountId rowKey
  cases hit : accountNamed server s name with
  | some account =>
    obtain ⟨_,_,present⟩ := namedSome hit
    rw [sightKnown present]
    exact ⟨fun ran => ⟨fun absent => by simp [present] at absent,ran⟩,And.right⟩
  | none =>
    have absent := namedNone.mp hit
    rw [sightOpens absent rfl]
    refine ((opened absent).symm ▸ openBind valid stored).trans (and_congr_left fun _ => ?_)
    exact ⟨fun holds _ _ => holds,fun sighted => sighted absent rfl⟩

def actorId (server : Server) (s : DB) (name : Option String) : Option Int :=
  if known s name || opensActor name then some (accountId server s name) else none

theorem actorResolves : (sight b stamp name (opensActor name) s).Resolves .accounts (actorId server s name) := by
  unfold actorId
  split
  · rename_i opening
    obtain ⟨r,mem,number,_⟩ := sightNamed server s b stamp name (Bool.or_eq_true _ _ ▸ opening)
    exact List.mem_map.mpr ⟨r,mem,number⟩
  · trivial

theorem actorBind (valid : s.Valid) (stored : s.Resolves .blocks b) {rest : Option Int → Proc β} :
    withActor server b name stamp rest s = .ok out ↔ Sighted s name (opensActor name) ∧
      rest (actorId server s name) (sight b stamp name (opensActor name) s) = .ok out := by
  have opens {balance : Option Int} (opening : openingBalance name = balance) (opens : opensActor name = true)
      (absent : known s name = false) (hit : accountNamed server s name = none) :
      (insertInto (S := relic) .accounts (fun pk => (⟨pk,b,cut 12 name,some "",balance,stamp⟩ : Account)) >>=
        fun id => pure (some id) >>= rest) s = .ok out ↔ Sighted s name (opensActor name) ∧
        rest (actorId server s name) (sight b stamp name (opensActor name) s) = .ok out := by
    rw [sightOpens absent opens, actorId, opens, Bool.or_true, if_pos rfl, accountId, hit, opening]
    refine (openBind valid stored).trans (and_congr_left fun _ => ?_)
    exact ⟨fun holds _ _ => holds,fun sighted => sighted absent rfl⟩
  unfold withActor
  rw [lookupRuns]
  cases hit : accountNamed server s name with
  | some account =>
    obtain ⟨_,_,present⟩ := namedSome hit
    unfold accountNamed at hit
    rw [sightKnown present, actorId, present, Bool.true_or, if_pos rfl, accountId, accountNamed, hit]
    exact ⟨fun ran => ⟨fun absent => by simp [present] at absent,ran⟩,And.right⟩
  | none =>
    have absent := namedNone.mp hit
    have missing := hit
    unfold accountNamed at missing
    rw [missing]
    by_cases token : same name fioToken = true
    · simp only [token, if_true]
      exact opens (by rw [openingBalance, if_pos token]) (by simp [opensActor, token]) absent hit
    · by_cases system : (startsWith name "fio." || startsWith name "eosio.") = true
      · simp only [token, system, if_true, Bool.false_eq_true, if_false]
        exact opens (by rw [openingBalance, if_neg token]) (by simpa [opensActor, Bool.or_assoc, token] using system)
          absent hit
      · have closed : opensActor name = false := by
          simpa [opensActor, Bool.or_assoc, token] using system
        simp only [token, system]
        rw [sightClosed closed, actorId, absent, closed, Bool.or_false, if_neg (by decide)]
        exact ⟨fun ran => ⟨fun _ opening => (by cases opening),ran⟩,And.right⟩

end Procedures

section Both
variable {s : DB} {b : Option Int} {stamp : Option Timestamp} {ac an : Option String}

theorem sightBothOther {t : TableName} (other : t ≠ .accounts) : sightBoth b stamp ac an s t = s t :=
  (sightOther other).trans (sightOther other)

theorem openableNone (none : openings s ac an = []) : Openable s ac an := by
  refine ⟨⟨?_,?_⟩,?_⟩ <;> simp [none, Database.Draws]

theorem openableOne {name : Option String} (one : openings s ac an = [name]) : Openable s ac an ↔
    s.Draws .accounts 1 ∧ castable 12 name = true ∧ known s (cut 12 name) = false := by
  constructor
  · rintro ⟨⟨named,_⟩,drawn⟩
    rw [one] at drawn named
    exact ⟨drawn,named name List.mem_cons_self⟩
  · rintro ⟨drawn,named⟩
    exact ⟨⟨by simpa [one] using named,by simp [one]⟩,by rwa [one]⟩

theorem openableTwo {text : String} (two : openings s ac (some text) = [ac,some text]) (absent : known s ac = false) :
    Openable s ac (some text) ↔ (s.Draws .accounts 1 ∧ castable 12 ac = true ∧ known s (cut 12 ac) = false) ∧
      (sight b stamp ac true s).Draws .accounts 1 ∧ castable 12 (some text) = true ∧
      known (sight b stamp ac true s) (cut 12 (some text)) = false := by
  have drawn : s.Draws .accounts 2 ↔ s.Draws .accounts 1 ∧ (sight b stamp ac true s).Draws .accounts 1 := by
    rw [sightOpens absent rfl]
    exact Database.drawsInsert rfl
  have newest : known (sight b stamp ac true s) (cut 12 (some text)) = false ↔
      known s (cut 12 (some text)) = false ∧ cut 12 ac ≠ cut 12 (some text) := by
    obtain ⟨short,given⟩ : ∃ t, cut 12 (some text) = some t := cutSome
    rw [knownSight, absent, given]
    cases cut 12 ac <;> simp
  rw [newest]
  constructor
  · rintro ⟨⟨named,apart⟩,draws⟩
    rw [two] at draws named apart
    have own := named _ List.mem_cons_self
    have own' := named _ (List.mem_cons_of_mem _ List.mem_cons_self)
    have other : cut 12 ac ≠ cut 12 (some text) := by simpa using apart
    exact ⟨⟨(drawn.mp draws).1,own⟩,(drawn.mp draws).2,own'.1,own'.2,other⟩
  · rintro ⟨⟨first,own⟩,second,fits,new,other⟩
    refine ⟨⟨?_,by simpa [two] using other⟩,by rw [two]; exact drawn.mpr ⟨first,second⟩⟩
    simp only [two, List.forall_mem_cons]
    exact ⟨own,⟨fits,new⟩,fun _ none => absurd none List.not_mem_nil⟩

theorem openable : Sighted s ac true ∧ Sighted (sight b stamp ac true s) an (opensActor an) ↔ Openable s ac an := by
  have again : known (sight b stamp ac true s) an = (known s an || !known s ac && same (cut 12 ac) an) := by
    simp [knownSight]
  by_cases opening : opensActor an = true ∧ known (sight b stamp ac true s) an = false
  · obtain ⟨opens,missing⟩ := opening
    cases present : known s ac with
    | true =>
      rw [sightKnown present] at missing ⊢
      have one : openings s ac an = [an] := by simp [openings, present, opens, missing]
      rw [openableOne one]
      exact ⟨fun sighted => sighted.2 missing opens,fun can => ⟨fun absent => by simp [present] at absent,fun _ _ => can⟩⟩
    | false =>
      obtain ⟨text,rfl⟩ : ∃ text, an = some text := Option.ne_none_iff_exists'.mp (by rintro rfl; cases opens)
      have two : openings s ac (some text) = [ac,some text] := by
        rw [again, present] at missing
        rw [openings, present, opens, missing]
        rfl
      rw [openableTwo two present]
      exact ⟨fun sighted => ⟨sighted.1 present rfl,sighted.2 missing opens⟩,
        fun can => ⟨fun _ _ => can.1,fun _ _ => can.2⟩⟩
  · have second : Sighted (sight b stamp ac true s) an (opensActor an) :=
      fun absent opens => absurd ⟨opens,absent⟩ opening
    rw [again] at opening
    cases present : known s ac with
    | true =>
      have none : openings s ac an = [] := by cases opens : opensActor an <;> simp_all [openings]
      exact ⟨fun _ => openableNone none,fun _ => ⟨fun absent => by simp [present] at absent,second⟩⟩
    | false =>
      have one : openings s ac an = [ac] := by cases opens : opensActor an <;> simp_all [openings]
      rw [openableOne one]
      exact ⟨fun sighted => sighted.1 present rfl,fun can => ⟨fun _ _ => can,second⟩⟩

theorem sightBothValid (valid : s.Valid) (stored : s.Resolves .blocks b) (can : Openable s ac an) :
    (sightBoth b stamp ac an s).Valid := by
  obtain ⟨first,second⟩ := openable.mpr can
  exact sightValid (sightValid valid stored first) (sightBlocks stored) second

end Both

section Transactions
variable {server : Server} {s s' : DB} {b : Option Int} {stamp : Option Timestamp} {ac an : Option String}

structure Texts (x a p w : Option String) : Prop where
  id : castable 80 x = true
  action : castable 12 a = true
  tpid : castable 64 p = true
  status : castable 120 w = true

theorem sightedBoth (server : Server) (s : DB) (b : Option Int) (stamp : Option Timestamp) (ac an : Option String) :
    (sightBoth b stamp ac an s).Resolves .accounts (some (accountId server s ac)) ∧
      (sightBoth b stamp ac an s).Resolves .accounts (actorId server (sight b stamp ac true s) an) := by
  refine ⟨?_,actorResolves⟩
  obtain ⟨r,mem,number,_⟩ := sightNamed server s b stamp ac (Or.inr rfl)
  exact List.mem_map.mpr ⟨r,sightRows r mem,number⟩

theorem sightBothResolves {t : TableName} {k : Option Int} (other : t ≠ .accounts) (stored : s.Resolves t k) :
    (sightBoth b stamp ac an s).Resolves t k := by
  unfold Database.Resolves Database.keys
  rw [sightBothOther other]
  exact stored

/- The one branch that the two copies do not share. -/
theorem tokenRaises (dated : below b (some 0) = false) (absent : known s fioToken = false) {f : Option Int}
    {x a p q r w : Option String} : insTransactions server b stamp x fioToken an a p f q r w s =
      .error (.undefinedColumn "fkblocknumber") := by
  have guarded : ¬below b (some 0) = true := by simp [dated]
  unfold insTransactions
  rw [if_neg guarded, lookupRuns, chosenNone.mpr (knownFalse.mp absent)]
  rfl

theorem noneListed {α : Type} {P : α → Prop} : ∀ x ∈ ([] : List α), P x :=
  fun _ none => absurd none List.not_mem_nil

theorem recordedBind {t : TableName} (other : t ≠ .accounts) (plain : unique t = []) {row : Int → Row t}
    (valid : (sightBoth b stamp ac an s).Valid) (number : ∀ k, key t (row k) = k) {v : Option Int}
    (refers : ∀ ref ∈ references t, (sightBoth b stamp ac an s).Resolves ref.parent (ref.column (row (s t).next))) :
    (do
      let pkid ← insertInto t row
      toInt (some pkid) : Proc (Option Int)) (sightBoth b stamp ac an s) = .ok (v,s') ↔
      s.Draws t 1 ∧ (∀ c ∈ varchars t, fitsWidth c.width (c.column (row (s t).next)) = true) ∧
      fitsInt (s t).next = true ∧ v = some (s t).next ∧
      s' = (sightBoth b stamp ac an s).append t [row (s t).next] := by
  have own : sightBoth b stamp ac an s t = s t := sightBothOther other
  rw [← own] at refers
  rw [insertBind valid number refers, Database.drawsCongr own, own, toIntOk]
  constructor
  · rintro ⟨⟨drawn,texts,_⟩,rfl,rfl,fits⟩
    exact ⟨drawn,texts,fits _ rfl,rfl,rfl⟩
  · rintro ⟨drawn,texts,fits,rfl,rfl⟩
    exact ⟨⟨drawn,texts,by rw [plain]; exact noneListed⟩,rfl,rfl,fun _ given => Option.some.inj given ▸ fits⟩

theorem insTransactionsOk {f v : Option Int} {x a p q r w : Option String} (valid : s.Valid)
    (stored : s.Resolves .blocks b) (dated : below b (some 0) = false) :
    insTransactions server b stamp x ac an a p f q r w s = .ok (v,s') ↔
      (same ac fioToken = true → known s ac = true) ∧ Openable s ac an ∧ s.Draws .transactions 1 ∧ Texts x a p w ∧
      fitsInt (s .transactions).next = true ∧ v = some (s .transactions).next ∧
      s' = (sightBoth b stamp ac an s).append .transactions [⟨(s .transactions).next,b,stamp,cut 80 x,
        some (accountId server s ac),actorId server (sight b stamp ac true s) an,cut 12 a,cut 64 p,f,q,r,cut 120 w⟩] := by
  have guarded : ¬below b (some 0) = true := by simp [dated]
  by_cases present : same ac fioToken = true → known s ac = true
  · have opened : known s ac = false → ¬same ac fioToken = true := fun absent token => by simp [present token] at absent
    have runs : insTransactions server b stamp x ac an a p f q r w s = .ok (v,s') ↔ Sighted s ac true ∧
        Sighted (sight b stamp ac true s) an (opensActor an) ∧ (do
          let pkid ← insertInto (S := relic) .transactions fun pk =>
            (⟨pk,b,stamp,cut 80 x,some (accountId server s ac),actorId server (sight b stamp ac true s) an,cut 12 a,
              cut 64 p,f,q,r,cut 120 w⟩ : Transaction)
          toInt (some pkid) : Proc (Option Int)) (sightBoth b stamp ac an s) = .ok (v,s') := by
      unfold insTransactions
      rw [if_neg guarded]
      refine (actionBind (fun id => withActor server b an stamp fun accountid => do
        let pkid ← insertInto (S := relic) .transactions fun pk =>
          (⟨pk,b,stamp,cut 80 x,some id,accountid,cut 12 a,cut 64 p,f,q,r,cut 120 w⟩ : Transaction)
        toInt (some pkid)) valid stored fun absent => ?_).trans
        (and_congr_right fun first => actorBind (sightValid valid stored first) (sightBlocks stored))
      rw [if_neg (opened absent), openingBalance, if_neg (opened absent)]
      rfl
    rw [runs, ← and_assoc, openable]
    have texts : (∀ c ∈ varchars .transactions, fitsWidth c.width (c.column (⟨(s .transactions).next,b,stamp,cut 80 x,
        some (accountId server s ac),actorId server (sight b stamp ac true s) an,cut 12 a,cut 64 p,f,q,r,
        cut 120 w⟩ : Transaction)) = true) ↔ Texts x a p w := by
      simp only [varchars, List.forall_mem_cons]
      constructor
      · rintro ⟨id,action,tpid,status,_⟩
        exact ⟨id,action,tpid,status⟩
      · rintro ⟨id,action,tpid,status⟩
        exact ⟨id,action,tpid,status,noneListed⟩
    obtain ⟨action,actor⟩ := sightedBoth server s b stamp ac an
    refine (and_congr_right fun can => recordedBind (t := .transactions) (by decide) rfl
      (sightBothValid valid stored can) (fun _ => rfl) ?_).trans ?_
    · simp only [references, List.forall_mem_cons]
      exact ⟨sightBothResolves (by decide) stored,action,actor,noneListed⟩
    · rw [texts]
      exact ⟨fun holds => ⟨present,holds⟩,And.right⟩
  · obtain ⟨token,missing⟩ := Classical.not_imp.mp present
    obtain ⟨text,rfl,own⟩ := sameTrue.mp token
    refine ⟨fun ran => ?_,fun holds => absurd holds.1 present⟩
    rw [← own, tokenRaises dated (by rwa [own, ← Bool.not_eq_true])] at ran
    cases ran

theorem insTracesBind {k o v : Option Int} {n q : Option String} (valid : s.Valid) (stored : s.Resolves .blocks b)
    (dated : below b (some 0) = false) : insTraces server k b ac an o n q stamp s = .ok (v,s') ↔ Openable s ac an ∧ (do
      let pkid ← insertInto (S := relic) .traces fun pk => (⟨pk,k,b,some (accountId server s ac),
        actorId server (sight b stamp ac true s) an,o,cut 12 n,q⟩ : Trace)
      toInt (some pkid) : Proc (Option Int)) (sightBoth b stamp ac an s) = .ok (v,s') := by
  have guarded : ¬below b (some 0) = true := by simp [dated]
  rw [← show Sighted s ac true ∧ Sighted (sight b stamp ac true s) an (opensActor an) ↔ _ from openable, and_assoc]
  unfold insTraces
  rw [if_neg guarded]
  refine (actionBind (fun id => withActor server b an stamp fun accountid => do
    let pkid ← insertInto (S := relic) .traces fun pk => (⟨pk,k,b,some id,accountid,o,cut 12 n,q⟩ : Trace)
    toInt (some pkid)) valid stored fun _ => ?_).trans
    (and_congr_right fun first => actorBind (sightValid valid stored first) (sightBlocks stored))
  by_cases token : same ac fioToken = true
  · rw [if_pos token, openingBalance, if_pos token]
    rfl
  · rw [if_neg token, openingBalance, if_neg token]
    rfl

theorem insTracesOk {k o v : Option Int} {n q : Option String} (valid : s.Valid) (tx : s.Resolves .transactions k)
    (stored : s.Resolves .blocks b) (dated : below b (some 0) = false) :
    insTraces server k b ac an o n q stamp s = .ok (v,s') ↔
      Openable s ac an ∧ s.Draws .traces 1 ∧ castable 12 n = true ∧ fitsInt (s .traces).next = true ∧
      v = some (s .traces).next ∧ s' = (sightBoth b stamp ac an s).append .traces [⟨(s .traces).next,k,b,
        some (accountId server s ac),actorId server (sight b stamp ac true s) an,o,cut 12 n,q⟩] := by
  have texts : (∀ c ∈ varchars .traces, fitsWidth c.width (c.column (⟨(s .traces).next,k,b,
      some (accountId server s ac),actorId server (sight b stamp ac true s) an,o,cut 12 n,q⟩ : Trace)) = true) ↔
      castable 12 n = true := by
    simp only [varchars, List.forall_mem_cons]
    exact ⟨And.left,fun fits => ⟨fits,noneListed⟩⟩
  obtain ⟨action,receiver⟩ := sightedBoth server s b stamp ac an
  rw [insTracesBind valid stored dated]
  refine (and_congr_right fun can => recordedBind (t := .traces) (by decide) rfl
    (sightBothValid valid stored can) (fun _ => rfl) ?_).trans ?_
  · simp only [references, List.forall_mem_cons]
    exact ⟨sightBothResolves (by decide) tx,sightBothResolves (by decide) stored,action,receiver,noneListed⟩
  · rw [texts]

theorem insTracesMeets (valid : s.Valid) (stored : s.Resolves .blocks b) (dated : below b (some 0) = false)
    {k o v : Option Int} {n q : Option String} (ran : insTraces server k b ac an o n q stamp s = .ok (v,s')) :
    (s' .accounts).rows = (sightBoth b stamp ac an s .accounts).rows := by
  obtain ⟨_,recorded⟩ := (insTracesBind valid stored dated).mp ran
  obtain ⟨_,m,inserted,last⟩ := bindOk.mp recorded
  obtain ⟨_,target,_⟩ := insertIntoOk.mp inserted
  rw [(toIntOk.mp last).2.1, target, Database.appendOther _ (by decide)]

end Transactions

section Agreement
variable {server : Server} {s s' : DB} {ac : String} {an : Option String}

def nameBalance (r : Account) : Option String × Option Int := (r.accountName,r.fioBalanceSuf)

theorem sightAdds (s : DB) (b : Option Int) (stamp : Option Timestamp) (name : Option String) (opens : Bool) :
    ∃ added, (sight b stamp name opens s .accounts).rows = (s .accounts).rows ++ added ∧
      added.map nameBalance = if known s name || !opens then [] else [(cut 12 name,openingBalance name)] := by
  unfold sight
  split
  · exact ⟨[],(List.append_nil _).symm,rfl⟩
  · exact ⟨_,by rw [Database.appendSame],rfl⟩

theorem sightBothAdds (s : DB) (b : Option Int) (stamp : Option Timestamp) (name an : Option String) : ∃ added,
    (sightBoth b stamp name an s .accounts).rows = (s .accounts).rows ++ added ∧
      added.map nameBalance = (openings s name an).map fun n => (cut 12 n,openingBalance n) := by
  obtain ⟨first,grown,alike⟩ := sightAdds s b stamp name true
  obtain ⟨second,grown',alike'⟩ := sightAdds (sight b stamp name true s) b stamp an (opensActor an)
  refine ⟨first ++ second,by unfold sightBoth; rw [grown', grown, List.append_assoc],?_⟩
  rw [List.map_append, alike, alike', openings, List.map_append, knownSight]
  congr 1
  · cases known s name <;> rfl
  · cases opensActor an <;> cases known s an <;> cases known s name <;> cases same (cut 12 name) an <;> rfl

structure Opens (s : DB) (added : List Account) : Prop where
  missing : ∀ r ∈ added, ∀ old ∈ (s .accounts).rows, old.accountName ≠ r.accountName
  once : (added.map Account.accountName).Nodup
  balance : ∀ r ∈ added, r.fioBalanceSuf = some (if r.accountName = some "fio.token" then 1000000000000000000 else 0)

theorem openingBalanceNamed {name : Option String} : openingBalance name =
    some (if name = some "fio.token" then 1000000000000000000 else 0) := by
  unfold openingBalance fioToken supply
  cases name with
  | none => rfl
  | some text => by_cases token : text = "fio.token" <;> simp [token]

theorem unknownName {text : String} (absent : known s (some text) = false) :
    ∀ old ∈ (s .accounts).rows, old.accountName ≠ some text := by
  intro old mem given
  have apart := knownFalse.mp absent old mem
  simp [given] at apart

theorem opensNew {added : List Account} (can : Openable s (some ac) an)
    (alike : added.map nameBalance = (openings s (some ac) an).map fun n => (cut 12 n,openingBalance n)) :
    Opens s added := by
  have names : added.map Account.accountName = (openings s (some ac) an).map (cut 12) := by
    have first := congrArg (List.map Prod.fst) alike
    rwa [List.map_map, List.map_map] at first
  have each : ∀ r ∈ added, ∃ text, r.accountName = cut 12 (some text) ∧ some text ∈ openings s (some ac) an ∧
      r.fioBalanceSuf = openingBalance (some text) := by
    intro r mem
    have read : nameBalance r ∈ added.map nameBalance := List.mem_map_of_mem mem
    rw [alike] at read
    obtain ⟨name,listed,given⟩ := List.mem_map.mp read
    obtain ⟨own,balance⟩ := Prod.mk.inj given
    cases name with
    | some text => exact ⟨text,own.symm,listed,balance.symm⟩
    | none =>
      rcases List.mem_append.mp listed with first | second
      · cases stored : known s (some ac) <;> simp [stored] at first
      · cases an with
        | none => simp [opensActor, startsWith] at second
        | some text => split at second <;> simp at second
  refine ⟨fun r mem old stored => ?_,names ▸ can.apart,fun r mem => ?_⟩
  · obtain ⟨text,own,listed,_⟩ := each r mem
    obtain ⟨short,given⟩ : ∃ t, cut 12 (some text) = some t := cutSome
    rw [own, given]
    exact unknownName (given ▸ (can.named _ listed).2) old stored
  · obtain ⟨text,own,_,balance⟩ := each r mem
    rw [balance, ← openingCut, openingBalanceNamed, own]

structure Bootstrapped (s s' : DB) (ac : String) (id : Int) (added : List Account) : Prop where
  fresh : id ∉ s.keys .transactions
  recorded : ∃ row : Transaction, (s' .transactions).rows = (s .transactions).rows ++ [row] ∧ row.pkTransactionId = id ∧
    ∃ account ∈ (s' .accounts).rows, account.accountName = some ac ∧ row.fkActionAccountId = some account.pkAccountId
  accounts : (s' .accounts).rows = (s .accounts).rows ++ added
  opens : Opens s added

theorem accountsBootstrapped (valid : s.Valid) {b : Int} (stored : b ∈ DB.blockNumbers s)
    (positive : 0 ≤ b) (stamp : Option Timestamp) (f : Option Int) (x a p q r w : Option String) :
    (∃ id s' added, insTransactions server (some b) stamp x (some ac) an a p f q r w s = .ok (some id,s') ∧
      Bootstrapped s s' ac id added ∧ ∀ (k o v : Option Int) n d stamp' s'',
        insTraces server k (some b) (some ac) an o n d stamp' s = .ok (v,s'') →
        ∃ added', (s'' .accounts).rows = (s .accounts).rows ++ added' ∧ added'.map nameBalance = added.map nameBalance) ↔
      (ac = "fio.token" → known s fioToken = true) ∧ ac.length ≤ 12 ∧ Openable s (some ac) an ∧
        s.Draws .transactions 1 ∧ Texts x a p w ∧ fitsInt (s .transactions).next = true := by
  have dated : below (some b) (some 0) = false := by simp [positive]
  have resolved : s.Resolves .blocks (some b) := stored
  have token : (ac = "fio.token" → known s fioToken = true) ↔
      (same (some ac) fioToken = true → known s (some ac) = true) := by
    by_cases own : ac = "fio.token"
    · simp [own, fioToken]
    · simp [own, fioToken]
  rw [token]
  constructor
  · rintro ⟨id,s',added,ran,boot,_⟩
    obtain ⟨present,can,draws,texts,fits,_,rfl⟩ := (insTransactionsOk valid resolved dated).mp ran
    obtain ⟨_,_,_,account,mem,own,_⟩ := boot.recorded
    rw [Database.appendOther _ (by decide)] at mem
    have short : fitsWidth 12 account.accountName = true :=
      (sightBothValid valid resolved can).fitsColumn (t := .accounts) List.mem_cons_self mem
    rw [own] at short
    exact ⟨present,by simpa [fitsWidth] using short,can,draws,texts,fits⟩
  · rintro ⟨present,short,can,draws,texts,fits⟩
    have ran : insTransactions server (some b) stamp x (some ac) an a p f q r w s = .ok (_,_) :=
      (insTransactionsOk valid resolved dated).mpr ⟨present,can,draws,texts,fits,rfl,rfl⟩
    obtain ⟨added,grown,alike⟩ := sightBothAdds s (some b) stamp (some ac) an
    obtain ⟨account,mem,number,own⟩ := sightNamed server s (some b) stamp (some ac) (Or.inr rfl)
    refine ⟨_,_,added,ran,⟨draws.one.2,⟨⟨(s .transactions).next,some b,stamp,cut 80 x,
      some (accountId server s (some ac)),actorId server (sight (some b) stamp (some ac) true s) an,cut 12 a,cut 64 p,f,q,
      r,cut 120 w⟩,?_,rfl,account,?_,?_,by rw [number]⟩,?_,opensNew can alike⟩,?_⟩
    · rw [Database.appendSame, sightBothOther (by decide)]
    · rw [Database.appendOther _ (by decide)]
      exact sightRows account mem
    · rw [own, cutFits (by simpa [fitsWidth] using short), ite_self]
    · rw [Database.appendOther _ (by decide), grown]
    · intro k o v n d stamp' s'' ran'
      obtain ⟨added',grown',alike'⟩ := sightBothAdds s (some b) stamp' (some ac) an
      exact ⟨added',(insTracesMeets valid resolved dated ran').trans grown',alike'.trans alike.symm⟩

end Agreement

def firstBlock : DB := (run (events [.insBlocks (some 1) none (some "b1") none none])).db

theorem accountsBootstrappedFirst : ∃ id s' added,
    insTransactions leastServer (some 1) none (some "x") (some "eosio") (some "fio.treasury") (some "setpriv") none
      none none none none firstBlock = .ok (some id,s') ∧ Bootstrapped firstBlock s' "eosio" id added ∧
      ∀ (k o v : Option Int) n d stamp' s'',
        insTraces leastServer k (some 1) (some "eosio") (some "fio.treasury") o n d stamp' firstBlock = .ok (v,s'') →
        ∃ added', (s'' .accounts).rows = (firstBlock .accounts).rows ++ added' ∧
          added'.map nameBalance = added.map nameBalance :=
  (accountsBootstrapped (kemptRun _).valid (by decide +kernel) (by decide) none none (some "x")
    (some "setpriv") none none none none).mpr ⟨by decide,by decide,
      ⟨⟨by decide +kernel,by decide +kernel⟩,by decide +kernel⟩,by decide +kernel,
      ⟨by decide,by decide,by decide,by decide⟩,by decide +kernel⟩

theorem tokenNotBootstrapped : firstBlock.Valid ∧ 1 ∈ DB.blockNumbers firstBlock ∧
    (¬∃ id s' added, insTransactions leastServer (some 1) none (some "x") (some "fio.token") (some "alice")
      (some "transfer") none none none none none firstBlock = .ok (some id,s') ∧
      Bootstrapped firstBlock s' "fio.token" id added) ∧
    ∃ id s', insTraces leastServer none (some 1) (some "fio.token") (some "alice") (some 1) (some "transfer") none none
      firstBlock = .ok (some id,s') ∧
      ((s' .accounts).rows.map nameBalance) = [(some "fio.token",some 1000000000000000000)] := by
  refine ⟨(kemptRun _).valid,by decide +kernel,?_,?_⟩
  · rintro ⟨id,s',added,ran,_⟩
    have absent : known firstBlock fioToken = false := by decide +kernel
    rw [show some "fio.token" = fioToken from rfl, tokenRaises (by decide) absent] at ran
    cases ran
  · have opened : (insTraces leastServer none (some 1) (some "fio.token") (some "alice") (some 1) (some "transfer")
        none none firstBlock).toOption.map (fun out => (out.1.isSome,(out.2 .accounts).rows.map nameBalance)) =
      some (true,[(some "fio.token",some 1000000000000000000)]) := by decide +kernel
    obtain ⟨⟨id?,s'⟩,ran,read⟩ := Option.map_eq_some_iff.mp opened
    obtain ⟨answered,rows⟩ := Prod.mk.inj read
    obtain ⟨id,rfl⟩ := Option.isSome_iff_exists.mp answered
    cases out : insTraces leastServer none (some 1) (some "fio.token") (some "alice") (some 1) (some "transfer") none none
      firstBlock with
    | error raised =>
      rw [out] at ran
      cases ran
    | ok answer =>
      rw [out] at ran
      cases ran
      exact ⟨id,s',rfl,rows⟩

end FioRelic

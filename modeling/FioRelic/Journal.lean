import FioRelic.AddressBook
import FioRelic.SignatureRollback
import FioRelic.Footprints
import FioRelic.Lasting

/-! The journal of the two maps. Every call that acts on them is entered with the head of
the chain, and a fork strikes the entries made at or after its block: what is left, replayed
from nothing, is what the tables hold. -/
namespace FioRelic
open Relational Versioning

namespace Call

def onBook : Call → Option BookCall
  | insUpdPubAddresses b (some h) (some c) (some t) p => some (.insUpdPubAddresses b h c t p)
  | delPubAddress (some h) (some c) (some t) p => some (.delPubAddress h c t p)
  | delPubAddresses (some h) => some (.delPubAddresses h)
  | clearPubAddresses (some h) => some (.clearPubAddresses h)
  | insUpdNftSignatures b (some h) (some c) (some a) (some t) u x d => some (.insUpdNftSignatures b h c a t u x d)
  | delNftSignature (some h) (some c) (some a) (some t) => some (.delNftSignature h c a t)
  | delNftSignatures (some h) => some (.delNftSignatures h)
  | _ => none

theorem onBookIs {c : Call} {k : BookCall} (given : c.onBook = some k) : c = k.call := by
  unfold onBook at given
  split at given <;> cases given <;> rfl

end Call

structure BookEntry where
  head : Option Int
  call : BookCall
  deriving DecidableEq, Repr

def BookEntry.before (b : Int) (x : BookEntry) : Bool := !atLeast x.head (some b)

def enter (n : Node) (j : List BookEntry) (e : Event) : List BookEntry := match e.call with
  | .rbFork (some b) => if 0 ≤ b ∧ (e.call.run e.server n.db).isOk then j.filter (BookEntry.before b) else j
  | c => match c.onBook with
    | some k => if k.Accepted e.server n.db then j ++ [⟨DB.head n.db,k⟩] else j
    | none => j

def journalFrom : Node → List BookEntry → List Event → List BookEntry
  | _, j, [] => j
  | n, j, e :: rest => journalFrom (n.step e) (enter n j e) rest

def journal (history : List Event) : List BookEntry := journalFrom Node.empty [] history

def bookOf (j : List BookEntry) : Book := j.foldl (fun m x => x.call.act m) .blank

def Booked (n : Node) (e : Event) : Prop := match e.call.onBook with
  | some k => OneHandle n.db k.handle ∧ (k.Accepted e.server n.db → k.Plain e.server n.db)
  | none => .pubAddresses ∉ e.call.footprint ∧ .nftSignatures ∉ e.call.footprint ∨ e.call.isFork = true

instance (n : Node) (e : Event) : Decidable (Booked n e) := by
  unfold Booked
  split <;> infer_instance

theorem journalLast (history : List Event) (e : Event) :
    journal (history ++ [e]) = enter (run history) (journal history) e := by
  have along : ∀ n j, journalFrom n j (history ++ [e]) = enter (runFrom n history) (journalFrom n j history) e := by
    induction history with
    | nil => exact fun _ _ => rfl
    | cons first rest ih => exact fun n j => ih (n.step first) (enter n j first)
  exact along Node.empty []

theorem bookOfLast (j : List BookEntry) (x : BookEntry) : bookOf (j ++ [x]) = x.call.act (bookOf j) := by
  simp [bookOf]

section Names
variable {c : Call} {s s' : DB} {id : Int} {name : String} {m : Book}

theorem handleNameSome (valid : s.Valid) :
    handleName s id = some name ↔ ∃ h ∈ (s .handles).rows, h.pkHandleId = id ∧ h.handle = some name := by
  constructor
  · intro found
    obtain ⟨h,hit,named⟩ := Option.bind_eq_some_iff.mp found
    have number := List.find?_some hit
    exact ⟨h,List.mem_of_find?_eq_some hit,of_decide_eq_true number,named⟩
  · rintro ⟨h,mem,rfl,named⟩
    unfold handleName
    cases hit : (s .handles).rows.find? fun h' => decide (h'.pkHandleId = h.pkHandleId) with
    | none => exact absurd (List.find?_eq_none.mp hit h mem) (by simp)
    | some h' =>
      have number := List.find?_some hit
      have same : h' = h :=
        valid.sameRow (t := .handles) (List.mem_of_find?_eq_some hit) mem (of_decide_eq_true number)
      rw [same]
      exact named

theorem nameChange (h : Change c s s') (valid : s.Valid) (found : handleName s id = some name) :
    handleName s' id = some name := by
  obtain ⟨r,mem,number,named⟩ := (handleNameSome valid).mp found
  refine (handleNameSome h.valid).mpr ?_
  cases h with
  | insert t row =>
    by_cases own : TableName.handles = t
    · subst own
      rw [Database.appendSame]
      exact ⟨r,List.mem_append_left _ mem,number,named⟩
    · rw [Database.appendOther _ own]
      exact ⟨r,mem,number,named⟩
  | update a p assign entries rewritten =>
    by_cases own : a = .handles
    · subst own
      rw [Database.appendOther _ (Audited.logOther .handles).symm, Database.withRowsSame]
      refine ⟨assigned p assign r,List.mem_map_of_mem mem,?_⟩
      unfold assigned
      cases hit : p r with
      | false => exact ⟨number,named⟩
      | true =>
        have written := rewritten r mem hit
        exact ⟨written.number.trans number,Eq.trans written.kept named⟩
    · rw [Database.appendOther _ (Audited.tableLog .handles a),
        Database.withRowsOther _ (Audited.tableInjective (Ne.symm own))]
      exact ⟨r,mem,number,named⟩
  | delete a deletes p entries =>
    have own : a ≠ .handles := fun same => by
      subst same
      cases deletes
    rw [Database.appendOther _ (Audited.tableLog .handles a),
      Database.withRowsOther _ (Audited.tableInjective (Ne.symm own))]
    exact ⟨r,mem,number,named⟩

theorem nameChanges (h : Changes c s s') (valid : s.Valid) (found : handleName s id = some name) :
    handleName s' id = some name := by
  induction h with
  | refl => exact found
  | tail before last ih => exact nameChange last (Changes.valid before valid) ih

theorem storedKept (stored : m.Stored s) (addresses : s' .pubAddresses = s .pubAddresses)
    (signatures : s' .nftSignatures = s .nftSignatures)
    (names : ∀ id name, handleName s id = some name → handleName s' id = some name) : m.Stored s' := by
  have owner : ∀ (id : Option Int) (name : String), id.bind (handleName s) = some name →
      id.bind (handleName s') = some name := by
    intro id name found
    obtain ⟨i,rfl,found⟩ := Option.bind_eq_some_iff.mp found
    exact names i name found
  constructor
  · rw [addresses]
    refine stored.addresses.congr fun r mem => ?_
    obtain ⟨k,own⟩ := stored.addresses.keyed r mem
    obtain ⟨handle,rest⟩ := addressKeySome.mp own
    rw [own]
    exact addressKeySome.mpr ⟨owner _ _ handle,rest⟩
  · rw [signatures]
    refine stored.signatures.congr fun r mem => ?_
    obtain ⟨k,own⟩ := stored.signatures.keyed r mem
    obtain ⟨handle,rest⟩ := signatureKeySome.mp own
    rw [own]
    exact signatureKeySome.mpr ⟨owner _ _ handle,rest⟩

theorem storedBack {s₀ : DB} (stored : m.Stored s₀) (handles : (s' .handles).rows = (s₀ .handles).rows)
    (addresses : ((s' .pubAddresses).rows.map (Audited.blank .pubAddresses)).Perm
      ((s₀ .pubAddresses).rows.map (Audited.blank .pubAddresses)))
    (signatures : ((s' .nftSignatures).rows.map (Audited.blank .nftSignatures)).Perm
      ((s₀ .nftSignatures).rows.map (Audited.blank .nftSignatures))) : m.Stored s' := by
  have names : handleName s' = handleName s₀ := by
    funext id
    rw [handleName, handles]
    rfl
  have keys : addressKey s' = addressKey s₀ := by
    funext r
    rw [addressKey, names]
    rfl
  have keys' : signatureKey s' = signatureKey s₀ := by
    funext r
    rw [signatureKey, names]
    rfl
  constructor
  · rw [keys]
    refine (Graph.mapped (f := Audited.blank .pubAddresses) (fun _ => rfl) fun _ => rfl).mp ?_
    have blank := (Graph.mapped (f := Audited.blank .pubAddresses) (fun _ => rfl) fun _ => rfl).mpr stored.addresses
    exact blank.perm addresses.symm
  · rw [keys']
    refine (Graph.mapped (f := Audited.blank .nftSignatures) (fun _ => rfl) fun _ => rfl).mp ?_
    have blank := (Graph.mapped (f := Audited.blank .nftSignatures) (fun _ => rfl) fun _ => rfl).mpr stored.signatures
    exact blank.perm signatures.symm

end Names

section Entries
variable {n : Node} {j : List BookEntry} {e : Event} {k : BookCall} {b c : Int}

theorem enterBook (given : e.call.onBook = some k) :
    enter n j e = if k.Accepted e.server n.db then j ++ [⟨DB.head n.db,k⟩] else j := by
  obtain ⟨server,call⟩ := e
  have same := Call.onBookIs given
  change call = k.call at same
  subst same
  cases k <;> rfl

theorem enterOther (given : e.call.onBook = none) (forward : e.call.isFork = false) : enter n j e = j := by
  unfold enter
  split
  · rename_i same
    rw [same] at forward
    cases forward
  · rw [given]

theorem strikeTwice (le : b ≤ c) :
    (j.filter (BookEntry.before c)).filter (BookEntry.before b) = j.filter (BookEntry.before b) := by
  rw [List.filter_filter]
  refine List.filter_congr fun x _ => ?_
  unfold BookEntry.before
  cases late : atLeast x.head (some c) with
  | true => simp [atLeastMono le late]
  | false => simp

end Entries

structure Journaled (j : List BookEntry) (n : Node) : Prop where
  heads : ∀ x ∈ j, ∀ k, x.head = some k → k ∈ DB.blockNumbers n.db
  now : (bookOf j).Stored n.db
  past : ∀ b, atLeast (DB.head n.db) (some b) = true →
    (bookOf (j.filter (BookEntry.before b))).Stored (n.beforeBlock b)

section Steps
variable {n : Node} {j : List BookEntry} {e : Event} {k : BookCall} {s' : DB} {b : Int} {v : Option Int}

theorem journaledAt (standing : Standing n) (journaled : Journaled j n) (b : Int) :
    (bookOf (j.filter (BookEntry.before b))).Stored (n.beforeBlock b) := by
  cases late : atLeast (DB.head n.db) (some b) with
  | true => exact journaled.past b late
  | false =>
    have whole : j.filter (BookEntry.before b) = j := by
      refine List.filter_eq_self.mpr fun x mem => ?_
      unfold BookEntry.before
      cases stamp : x.head with
      | none => rfl
      | some k =>
        have below := headBelow.mp late k (journaled.heads x mem k stamp)
        simpa using below
    rw [whole, beforeAbove standing.stack late]
    exact journaled.now

theorem journaledLost (standing : Standing n) (drawn : TableName → Nat) (journaled : Journaled j n) :
    Journaled j ⟨n.db.skip drawn,n.before⟩ := by
  refine ⟨journaled.heads,storedFrame rfl journaled.now.addresses journaled.now.signatures,fun b late => ?_⟩
  have before : (⟨n.db.skip drawn,n.before⟩ : Node).beforeBlock b = n.beforeBlock b := beforeKept standing.stack late
  rw [before]
  exact journaled.past b late

theorem journaledBook (standing : Standing n) (given : e.call.onBook = some k) (one : OneHandle n.db k.handle)
    (plain : k.Accepted e.server n.db → k.Plain e.server n.db) (journaled : Journaled j n) :
    Journaled (enter n j e) (n.step e) := by
  obtain ⟨server,call,lost⟩ := e
  obtain rfl : call = k.call := Call.onBookIs given
  obtain ⟨h,holder⟩ := oneHandle one
  have valid := standing.kempt.valid
  rw [enterBook given]
  by_cases accepted : k.Accepted server n.db
  · obtain ⟨v,s',ran,after⟩ := callActs valid journaled.now holder accepted (plain accepted)
    have aside : k.call.aside = true := by cases k <;> rfl
    have blocks := callLeaves aside _ _ _ ran .blocks (by decide)
    have numbers : DB.blockNumbers s' = DB.blockNumbers n.db := by simp only [DB.blockNumbers, blocks]
    have top : DB.head s' = DB.head n.db := by simp only [DB.head, numbers]
    rw [if_pos accepted, stepAdvances ran, advanceKept standing.stack numbers]
    constructor
    · intro x inside i stamp
      change i ∈ DB.blockNumbers s'
      rw [numbers]
      rcases List.mem_append.mp inside with old | new
      · exact journaled.heads x old i stamp
      · rw [List.mem_singleton.mp new] at stamp
        exact List.max?_mem stamp
    · rw [bookOfLast]
      exact after
    · intro b late
      have late : atLeast (DB.head n.db) (some b) = true := top ▸ late
      have struck : BookEntry.before b ⟨DB.head n.db,k⟩ = false := by
        unfold BookEntry.before
        rw [late]
        rfl
      rw [List.filter_append, List.filter_singleton, struck, beforeKept standing.stack late]
      simpa using journaled.past b late
  · rw [if_neg accepted]
    cases ran : k.call.run server n.db with
    | error raised =>
      rw [stepRaised ran]
      exact journaledLost standing _ journaled
    | ok result =>
      obtain ⟨v,s'⟩ := result
      rw [stepAdvances ran, callRefused valid journaled.now holder accepted ran, advanceKept standing.stack rfl]
      exact journaled

theorem signaturesBack {history : List Event} (order : ChainOrder history)
    (earlier : Meets (AtForks Undeleted) history) (nonneg : 0 ≤ b) (ran : rbFork (some b) (run history).db = .ok (v,s'))
    (undeleted : Undeleted b (run history).db) :
    (s' .nftSignatures).rows = ((run history).beforeBlock b .nftSignatures).rows := by
  have sound := soundRun order
  have forked := rbForkForked nonneg sound.kempt ran
  obtain ⟨fresh,refilled⟩ := rbForkRefilled nonneg sound.kempt sound.chain ran .nftSignatures rfl
  have seen : Audited.seen .nftSignatures s' = Audited.seen .nftSignatures ((run history).beforeBlock b) := by
    refine sortedExt (seenSorted forked.serial) (seenSorted (beforeKempt sound b).serial) fun x => ?_
    rw [signaturesRewound sound.kempt (sound.chain .nftSignatures rfl) undeleted refilled]
    exact (signaturesKept order earlier b x).symm
  rw [seenDeletes rfl, seenDeletes rfl] at seen
  exact seen

theorem journaledFork {history : List Event} (order : ChainOrder history)
    (earlier : Meets (AtForks Undeleted) history) {given : Option Int} {server : Server} {lost : TableName → Nat}
    (undeleted : AtForks Undeleted (run history) ⟨server,.rbFork given,lost⟩) (journaled : Journaled j (run history)) :
    Journaled (enter (run history) j ⟨server,.rbFork given,lost⟩) ((run history).step ⟨server,.rbFork given,lost⟩) := by
  have sound := soundRun order
  have still : ∀ {v : Option Int} {s' : DB}, rbFork given (run history).db = .ok (v,s') → s' = (run history).db →
      (run history).step ⟨server,.rbFork given,lost⟩ = run history := by
    intro v s' ran same
    rw [stepAdvances (show Call.run server (.rbFork given) _ = .ok (v,s') from ran), same, advanceKept sound.stack rfl]
  cases ran : rbFork given (run history).db with
  | error raised =>
    have kept : enter (run history) j ⟨server,.rbFork given,lost⟩ = j := by
      cases given with
      | none => rfl
      | some b =>
        refine if_neg fun both => ?_
        have returns : (rbFork (some b) (run history).db).isOk = true := both.2
        rw [ran] at returns
        cases returns
    rw [kept, stepRaised (show Call.run server (.rbFork given) _ = .error raised from ran)]
    exact journaledLost sound.toStanding _ journaled
  | ok result =>
    obtain ⟨v,s'⟩ := result
    cases given with
    | none =>
      rw [still ran (rbForkNone ran)]
      exact journaled
    | some b =>
      by_cases nonneg : 0 ≤ b
      · have forked := rbForkForked nonneg sound.kempt ran
        have returns : (Call.run server (.rbFork (some b)) (run history).db).isOk = true := by
          change (rbFork (some b) (run history).db).isOk = true
          rw [ran]
          rfl
        have struck : enter (run history) j ⟨server,.rbFork (some b),lost⟩ = j.filter (BookEntry.before b) :=
          if_pos ⟨nonneg,returns⟩
        have numbers := forkBlocks forked
        have stack : ((run history).before.filter fun p => !decide (b ≤ p.1)).map Prod.fst = DB.blockNumbers s' := by
          rw [numbers, ← sound.stack, List.filter_map]
          rfl
        rw [struck, stepAdvances (show Call.run server (.rbFork (some b)) _ = .ok (v,s') from ran),
          advanceCut sound.stack numbers]
        constructor
        · intro x inside k stamp
          obtain ⟨old,early⟩ := List.mem_filter.mp inside
          change k ∈ DB.blockNumbers s'
          rw [numbers]
          refine List.mem_filter.mpr ⟨journaled.heads x old k stamp,?_⟩
          unfold BookEntry.before at early
          rw [stamp] at early
          exact early
        · have restored := forkRestores sound nonneg ran
          exact storedBack (journaledAt sound.toStanding journaled b)
            (restoredRows restored (a := .handles) rfl fun _ => rfl) restored.addresses
            (signaturesBack order earlier nonneg ran (undeleted b rfl) ▸ List.Perm.refl _)
        · intro c late
          obtain ⟨le,same⟩ := beforeCut (sound.stack ▸ sound.ascending) stack late
          rw [same, strikeTwice le]
          exact journaledAt sound.toStanding journaled c
      · have kept : enter (run history) j ⟨server,.rbFork (some b),lost⟩ = j := if_neg fun both => nonneg both.1
        rw [kept, still ran (rbForkNegative (by omega) ran)]
        exact journaled

theorem journaledOther (sound : Sound n) (order : e.call.InOrder n.db) (forward : e.call.isFork = false)
    (addresses : .pubAddresses ∉ e.call.footprint) (signatures : .nftSignatures ∉ e.call.footprint)
    (journaled : Journaled j n) : Journaled j (n.step e) := by
  have stack := sound.stack
  have move := moved sound.toStanding order
  generalize n.step e = n' at move ⊢
  cases move with
  | lost drawn => exact journaledLost sound.toStanding drawn journaled
  | changed s' v ordinary atHead ran changes =>
    have numbers : DB.blockNumbers s' = DB.blockNumbers n.db := by simp only [DB.blockNumbers, changes.blocks]
    have frames := callFrames e.call n.db v s' ran
    refine ⟨numbers ▸ journaled.heads,?_,fun b late => ?_⟩
    · exact storedKept journaled.now (frames _ addresses) (frames _ signatures)
        fun id name found => nameChanges changes sound.kempt.valid found
    · have late : atLeast (DB.head n.db) (some b) = true := changes.head ▸ late
      rw [beforeKept stack late]
      exact journaled.past b late
  | grown block above valid =>
    refine ⟨fun x inside k stamp => ?_,?_,fun b late => ?_⟩
    · change k ∈ DB.blockNumbers (n.db.append .blocks [block])
      rw [blockNumbersAppend]
      exact List.mem_append_left _ (journaled.heads x inside k stamp)
    · have others : ∀ t, t ≠ TableName.blocks → (n.db.append .blocks [block]) t = n.db t := fun _ => blockOther
      refine storedKept journaled.now (others .pubAddresses (by decide)) (others .nftSignatures (by decide)) ?_
      intro id name found
      have same : handleName (n.db.append .blocks [block]) id = handleName n.db id := by
        unfold handleName
        rw [others .handles (by decide)]
      exact same.trans found
    · rw [beforeGrown (headReaches above late)]
      exact journaledAt sound.toStanding journaled b
  | forked c s' v nonneg call ran =>
    rw [call] at forward
    cases forward

end Steps

theorem journaledRun {history : List Event} (order : ChainOrder history) (booked : Meets Booked history)
    (undeleted : Meets (AtForks Undeleted) history) : Journaled (journal history) (run history) := by
  induction history using List.reverseRecOn with
  | nil =>
    refine ⟨fun _ inside => absurd inside List.not_mem_nil,⟨.nil,.nil⟩,fun b late => ?_⟩
    cases late
  | append_singleton early e ih =>
    obtain ⟨ordered,atHead,_⟩ := meetsAppend order
    obtain ⟨met,named,_⟩ := meetsAppend booked
    obtain ⟨earlier,kept,_⟩ := meetsAppend undeleted
    have sound := soundRun ordered
    have journaled := ih ordered met earlier
    rw [journalLast, runLast]
    unfold Booked at named
    cases given : e.call.onBook with
    | some k =>
      rw [given] at named
      exact journaledBook sound.toStanding given named.1 named.2 journaled
    | none =>
      rw [given] at named
      cases forward : e.call.isFork with
      | false =>
        obtain ⟨addresses,signatures⟩ := named.resolve_right (by simp [forward])
        rw [enterOther given forward]
        exact journaledOther sound atHead forward addresses signatures journaled
      | true =>
        obtain ⟨server,call,lost⟩ := e
        cases call with
        | rbFork b => exact journaledFork ordered earlier kept journaled
        | _ => cases forward

theorem bookFollows {history : List Event} (order : ChainOrder history) (booked : Meets Booked history)
    (undeleted : Meets (AtForks Undeleted) history) :
    (bookOf (journal history)).Stored (run history).db ∧
      ∀ b, (bookOf ((journal history).filter (BookEntry.before b))).Stored ((run history).beforeBlock b) := by
  have journaled := journaledRun order booked undeleted
  exact ⟨journaled.now,journaledAt (soundRun order).toStanding journaled⟩

def readdressed : List Event := aliceRegistered ++ events
  [.insUpdPubAddresses (some 1) (some "alice@fio") (some "BTC") (some "BTC") (some "1A"),
    .insUpdNftSignatures (some 1) (some "alice@fio") (some "ETH") (some "0xc") (some "7") (some "url") none none,
    .insBlocks (some 2) none (some "b2") none none,
    .insUpdPubAddresses (some 2) (some "alice@fio") (some "BTC") (some "BTC") (some "1B"),
    .insUpdPubAddresses (some 2) (some "alice@fio") (some "ETH") (some "ETH") (some "0x1"),
    .insUpdNftSignatures (some 2) (some "alice@fio") (some "ETH") (some "0xc") (some "7") (some "url2") none none,
    .rbFork (some 2),
    .insBlocks (some 2) none (some "b2'") none none,
    .delPubAddresses (some "alice@fio")]

theorem bookFollowsReaddressed : (bookOf (journal readdressed)).Stored (run readdressed).db ∧
    ∀ b, (bookOf ((journal readdressed).filter (BookEntry.before b))).Stored ((run readdressed).beforeBlock b) :=
  bookFollows (by decide +kernel) (by decide +kernel) (by decide +kernel)

example : (bookOf ((journal readdressed).filter (BookEntry.before 2))).addresses ⟨"alice@fio","BTC","BTC"⟩ =
    some ⟨some "1A",some 1⟩ ∧ (bookOf (journal readdressed)).addresses ⟨"alice@fio","BTC","BTC"⟩ = none := by
  decide +kernel

end FioRelic

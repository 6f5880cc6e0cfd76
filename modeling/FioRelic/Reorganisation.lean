import FioRelic.Restore
import FioRelic.ProcedureTwins

/-! Reorganisations converge. A history whose discarded calls are left out ends with the
same rows, under ids without gaps. -/
namespace FioRelic
open Relational Versioning

namespace Call

def opened : Call → Option Int
  | insBlocks n .. => n
  | _ => none

end Call

def Event.opens (e : Event) : Option Int := e.call.opened.filter fun n => decide (0 ≤ n)

def Event.renamed (ids : Int → Int) (e : Event) : Event := ⟨e.server,e.call.renamed ids,e.lost⟩

def cutBefore (b : Int) (kept : List Event) : List Event :=
  kept.takeWhile fun e => !atLeast e.call.opened (some b)

def keep (kept : List Event) (e : Event) : List Event := match e.call with
  | .rbFork (some b) => if b < 0 then kept else cutBefore b kept
  | .rbFork none => kept
  | _ => kept ++ [e]

def survivors (history : List Event) : List Event := history.foldl keep []

def replay (s : DB) (kept : List Event) : List Event := kept.map (Event.renamed (rank s .transactions))

def Returns (n : Node) (e : Event) : Prop := (e.call.run e.server n.db).isOk = true

instance (n : Node) (e : Event) : Decidable (Returns n e) :=
  inferInstanceAs (Decidable ((e.call.run e.server n.db).isOk = true))

section Ids
variable {c : Call} {s s' t : DB} {u : TableName}

theorem changeIds (h : Change c s s') (listed : u ∈ followed) :
    s'.keys u = s.keys u ∧ (s' u).next = (s u).next ∨
      s'.keys u = s.keys u ++ [(s u).next] ∧ (s' u).next = (s u).next + 1 := by
  cases h with
  | insert t row number stamped inserted _ =>
    by_cases own : u = t
    · subst own
      refine Or.inr ⟨?_,by rw [Database.appendSame]; rfl⟩
      rw [Database.keysAppendSame, ← number]
      rfl
    · exact Or.inl ⟨Database.keysAppendOther own _,by rw [Database.appendOther _ own]⟩
  | update a p assign entries rewritten logged committed _ =>
    have apart := logApart a u listed
    refine Or.inl ⟨?_,?_⟩
    · rw [Database.keysAppendOther apart]
      exact Database.keysWithRows (assignedKeys fun r mem hit => (rewritten r mem hit).number) u
    · rw [Database.appendOther _ apart, withRowsNext]
  | delete a deletes p entries logged committed _ =>
    have apart := logApart a u listed
    have other : u ≠ a.table := by
      rintro rfl
      cases a <;> first
        | exact absurd listed (by decide)
        | cases deletes
    refine Or.inl ⟨?_,by rw [Database.appendOther _ apart, Database.withRowsOther _ other]⟩
    rw [Database.keysAppendOther apart]
    unfold Database.keys
    rw [Database.withRowsOther _ other]

theorem positiveChange (positive : Positive s) (h : Change c s s') : Positive s' := by
  intro u listed other
  obtain ⟨first,low⟩ := positive u listed other
  rcases changeIds h listed with ⟨keys,next⟩ | ⟨keys,next⟩
  · rw [keys, next]
    exact ⟨first,low⟩
  · rw [keys, next]
    refine ⟨by omega,fun k mem => ?_⟩
    rcases List.mem_append.mp mem with old | new
    · exact low k old
    · rw [List.mem_singleton.mp new]
      exact first

theorem keysLength : (s.keys u).length = (s u).rows.length := List.length_map ..

theorem denseChange (dense : Dense s) (h : Change c s s') : Dense s' := by
  intro u listed other
  obtain ⟨keys₀,next₀⟩ := dense u listed other
  rcases changeIds h listed with ⟨keys,next⟩ | ⟨keys,next⟩
  · rw [← keysLength, keys, keysLength, next]
    exact ⟨keys₀,next₀⟩
  · rw [← keysLength, keys, List.length_append, keysLength, List.length_singleton, next, next₀, keys₀, List.range_succ,
      List.map_append]
    exact ⟨rfl,by omega⟩

theorem rankCongr (same : ∀ u ∈ followed, (s' u).rows.map (shown u) = (s u).rows.map (shown u)) (listed : u ∈ followed) :
    s'.keys u = s.keys u ∧ rank s' u = rank s u := by
  have keys : s'.keys u = s.keys u := by
    have mapped := congrArg (List.map (key u)) (same u listed)
    rw [List.map_map, List.map_map] at mapped
    have plain : key u ∘ shown u = key u := funext keyShown
    rwa [plain] at mapped
  refine ⟨keys,funext fun k => ?_⟩
  unfold rank
  rw [keys]

theorem shownRenumber (ids : TableName → Int → Int) (r : Row u) :
    shown u (renumber ids u r) = renumber ids u (shown u r) := by cases u <;> rfl

theorem mirroredCongr (same : ∀ u ∈ followed, (s' u).rows.map (shown u) = (s u).rows.map (shown u))
    (mirrored : Mirrored s t) : Mirrored s' t where
  rows := by
    intro u listed
    have twins := mirrored.rows u listed
    simp only [shownRenumber] at twins ⊢
    rw [← List.forall₂_map_left_iff (f := shown u) (R := fun x r' => shown u r' = renumber (rank s) u x)] at twins
    rw [← List.forall₂_map_left_iff (f := shown u) (R := fun x r' => shown u r' = renumber (rank s') u x), same u listed]
    refine twins.imp fun x r' twin => twin.trans (renumberCongr ?_ fun ref mem => ?_)
    · exact fun _ => congrFun (rankCongr same listed).2.symm _
    · rw [(rankCongr same (referenceListed listed mem)).2]
  dense := mirrored.dense

end Ids

section Cuts
variable {b c : Int} {kept : List Event} {e : Event}

theorem opensLate (nonneg : 0 ≤ b) : atLeast e.call.opened (some b) = atLeast e.opens (some b) := by
  unfold Event.opens
  cases e.call.opened with
  | none => rfl
  | some n =>
    by_cases dated : 0 ≤ n
    · simp [Option.filter, dated]
    · simp only [Option.filter, dated, decide_false, Bool.false_eq_true, if_false, atLeastSome, atLeastNoneLeft,
        decide_eq_false_iff_not]
      omega

theorem cutEarly {rest : List Event} (early : atLeast e.call.opened (some b) = false) :
    cutBefore b (e :: rest) = e :: cutBefore b rest := by
  unfold cutBefore
  rw [List.takeWhile_cons, early]
  rfl

theorem cutLate {rest : List Event} (late : atLeast e.call.opened (some b) = true) : cutBefore b (e :: rest) = [] := by
  unfold cutBefore
  rw [List.takeWhile_cons, late]
  rfl

theorem opensEarly (nonneg : 0 ≤ b) (early : ∀ k, e.opens = some k → k < b) :
    atLeast e.call.opened (some b) = false := by
  rw [opensLate nonneg]
  cases opens : e.opens with
  | none => rfl
  | some k => simpa using early k opens

theorem cutAll (nonneg : 0 ≤ b) (early : ∀ k ∈ kept.filterMap Event.opens, k < b) : cutBefore b kept = kept := by
  refine List.takeWhile_eq_self_iff.mpr fun e mem => ?_
  rw [opensEarly nonneg fun k opens => early k (List.mem_filterMap.mpr ⟨e,mem,opens⟩)]
  rfl

theorem cutLast (nonneg : 0 ≤ b) (late : ∃ k ∈ kept.filterMap Event.opens, b ≤ k) :
    cutBefore b (kept ++ [e]) = cutBefore b kept := by
  obtain ⟨k,mem,le⟩ := late
  obtain ⟨e',inList,opens⟩ := List.mem_filterMap.mp mem
  have late : atLeast e'.call.opened (some b) = true := by
    rw [opensLate nonneg, opens]
    simpa using le
  clear mem
  induction kept with
  | nil => exact absurd inList List.not_mem_nil
  | cons head rest ih =>
    rw [List.cons_append]
    cases own : atLeast head.call.opened (some b) with
    | true => rw [cutLate own, cutLate own]
    | false =>
      rcases List.mem_cons.mp inList with rfl | later
      · rw [late] at own
        cases own
      · rw [cutEarly own, cutEarly own, ih later]

theorem cutStop (whole : cutBefore b kept = kept) (late : atLeast e.call.opened (some b) = true) :
    cutBefore b (kept ++ [e]) = kept := by
  have early : ∀ x ∈ kept, (!atLeast x.call.opened (some b)) = true := List.takeWhile_eq_self_iff.mp whole
  unfold cutBefore
  rw [List.takeWhile_append_of_pos early, List.takeWhile_cons, late]
  exact List.append_nil kept

theorem cutCut (le : b ≤ c) : cutBefore b (cutBefore c kept) = cutBefore b kept := by
  induction kept with
  | nil => rfl
  | cons e rest ih =>
    cases early : atLeast e.call.opened (some c) with
    | false =>
      rw [cutEarly early]
      cases own : atLeast e.call.opened (some b) with
      | true => rw [cutLate own, cutLate own]
      | false => rw [cutEarly own, cutEarly own, ih]
    | true =>
      obtain ⟨n,m,opened,same,above⟩ := atLeastTrue.mp early
      cases same
      have late : atLeast e.call.opened (some b) = true := by
        rw [opened]
        simpa using Int.le_trans le above
      rw [cutLate early, cutLate late]
      rfl

theorem opensCut (nonneg : 0 ≤ c) (ascending : (kept.filterMap Event.opens).Pairwise (· < ·)) :
    (cutBefore c kept).filterMap Event.opens = (kept.filterMap Event.opens).filter fun k => !decide (c ≤ k) := by
  induction kept with
  | nil => rfl
  | cons e rest ih =>
    cases opens : e.opens with
    | none =>
      rw [List.filterMap_cons_none opens] at ascending ⊢
      rw [cutEarly (opensEarly nonneg fun k same => by rw [opens] at same; cases same), List.filterMap_cons_none opens,
        ih ascending]
    | some k =>
      rw [List.filterMap_cons_some opens] at ascending ⊢
      obtain ⟨above,ascending⟩ := List.pairwise_cons.mp ascending
      by_cases late : c ≤ k
      · have nothing : (rest.filterMap Event.opens).filter (fun k => !decide (c ≤ k)) = [] := by
          refine List.filter_eq_nil_iff.mpr fun j mem => ?_
          have := above j mem
          simp only [Bool.not_eq_true', decide_eq_false_iff_not, not_not]
          omega
        rw [cutLate (by rw [opensLate nonneg, opens]; simpa using late), List.filter_cons_of_neg (by simp [late]), nothing]
        rfl
      · have early : atLeast e.call.opened (some c) = false :=
          opensEarly nonneg fun j same => by rw [opens] at same; cases same; omega
        rw [cutEarly early, List.filterMap_cons_some opens, ih ascending, List.filter_cons_of_pos (by simpa using late)]

end Cuts

structure Replayed (s : DB) (kept : List Event) : Prop where
  dated : ∀ k ∈ DB.blockNumbers s, 0 ≤ k
  positive : ∀ t ∈ followed, t ≠ .blocks → ∀ k ∈ s.keys t, 1 ≤ k
  stored : ∀ e ∈ kept, Database.Resolves s .transactions e.call.transactionArgument
  mirrored : Mirrored s (run (replay s kept)).db

section Calls
variable {c : Call} {server : Server} {s s' t t' : DB} {v : Option Int} {kept : List Event} {e : Event}

theorem renamedCongr {ids ids' : Int → Int} (same : ∀ k, c.transactionArgument = some k → ids k = ids' k) :
    c.renamed ids = c.renamed ids' := by
  have mapped : c.transactionArgument.map ids = c.transactionArgument.map ids' :=
    Option.map_congr fun k given => same k given
  cases c <;> simp_all [Call.renamed, Call.transactionArgument]

theorem ordinaryOr (forward : c.isFork = false) : c.ordinary = true ∨ ∃ n t i p w, c = .insBlocks n t i p w := by
  cases c with
  | insBlocks n t i p w => exact Or.inr ⟨n,t,i,p,w,rfl⟩
  | rbFork => cases forward
  | _ => exact Or.inl rfl

theorem blockIds (s : DB) (block : Block) {u : TableName} (other : u ≠ .blocks) :
    (s.append .blocks [block]).keys u = s.keys u ∧ (s.append .blocks [block]) u = s u := by
  have same : (s.append .blocks [block]) u = s u := Database.appendOther _ other _
  exact ⟨by unfold Database.keys; rw [same],same⟩

theorem callKeeps {P : DB → Prop} (forward : c.isFork = false) (valid : s.Valid)
    (block : ∀ b : Block, P s → P (s.append .blocks [b])) (change : ∀ m m', P m → Change c m m' → P m') (holds : P s)
    (ran : c.run server s = .ok (v,s')) : P s' := by
  rcases ordinaryOr forward with ordinary | ⟨n,t,i,p,w,rfl⟩
  · have changes := callChanges ordinary valid ran
    clear ran
    induction changes with
    | refl => exact holds
    | tail _ last ih => exact change _ _ ih last
  · rcases insBlocksOk ran with rfl | ⟨b,_,rfl,_⟩
    · exact holds
    · exact block b holds

theorem densePreserved (forward : c.isFork = false) (valid : s.Valid) (dense : Dense s)
    (ran : c.run server s = .ok (v,s')) : Dense s' := by
  refine callKeeps forward valid (fun b dense u listed other => ?_) (fun _ _ => denseChange) dense ran
  obtain ⟨keys,same⟩ := blockIds s b other
  rw [keys, same]
  exact dense u listed other

theorem positivePreserved (forward : c.isFork = false) (valid : s.Valid) (positive : Positive s)
    (ran : c.run server s = .ok (v,s')) : Positive s' := by
  refine callKeeps forward valid (fun b positive u listed other => ?_) (fun _ _ => positiveChange) positive ran
  obtain ⟨keys,same⟩ := blockIds s b other
  rw [keys, same]
  exact positive u listed other

theorem keysPreserved (forward : c.isFork = false) (valid : s.Valid) (ran : c.run server s = .ok (v,s')) :
    ∀ k ∈ s.keys .transactions, k ∈ s'.keys .transactions := by
  refine callKeeps (P := fun m => ∀ k ∈ s.keys .transactions, k ∈ m.keys .transactions) forward valid
    (fun b same k mem => ?_) (fun m m' same change k mem => ?_) (fun _ mem => mem) ran
  · rw [(blockIds _ b (by decide)).1]
    exact same k mem
  · rcases changeIds (u := .transactions) change (by decide) with ⟨keys,_⟩ | ⟨keys,_⟩
    · rw [keys]
      exact same k mem
    · rw [keys]
      exact List.mem_append_left _ (same k mem)

theorem atHeadOf (forward : c.isFork = false) (order : c.InOrder s) : AtHead c s := by
  cases c with
  | insBlocks => exact fun _ given => by cases given
  | rbFork => cases forward
  | _ => exact order

theorem argumentStored (dated : ∀ k ∈ DB.blockNumbers s, 0 ≤ k) (atHead : AtHead c s)
    (ran : c.run server s = .ok (v,s')) : Database.Resolves s' .transactions c.transactionArgument := by
  cases given : c.blockArgument with
  | none =>
    have none : c.transactionArgument = none := by
      cases c <;> first
        | rfl
        | cases given
    rw [none]
    trivial
  | some b =>
    obtain ⟨_,top⟩ := atHead b given
    refine callStores given ?_ s v s' ran
    cases head : DB.head s with
    | none => rw [top, head]; rfl
    | some h =>
      rw [head] at top
      subst top
      have low := dated h (List.max?_eq_some_iff.mp head).1
      simpa using low

theorem asideRenamed {ids : Int → Int} : (c.renamed ids).aside = c.aside := by cases c <;> rfl

theorem forkRenamed {ids : Int → Int} : (c.renamed ids).isFork = c.isFork := by cases c <;> rfl

def Behind (t s : DB) : Prop := ∀ u ∈ trailing, 0 ≤ (t u).next ∧ (t u).next ≤ (s u).next

theorem Behind.later (behind : Behind t s) (grows : ∀ u, (s u).next ≤ (s' u).next) : Behind t s' := fun u listed =>
  ⟨(behind u listed).1,Int.le_trans (behind u listed).2 (grows u)⟩

theorem asideStep {n : Node} (aside : e.call.aside = true) : ∀ u ∈ untouched, (n.step e).db u = n.db u := by
  intro u listed
  cases ran : e.call.run e.server n.db with
  | error raised =>
    rw [stepRaised ran]
    simp only [Database.skip, Event.drawn, if_neg (asideFootprint aside u listed), Int.natCast_zero, Int.add_zero]
  | ok result =>
    obtain ⟨w,t'⟩ := result
    rw [stepRan ran]
    exact callLeaves aside n.db w t' ran u listed

theorem asideMirrored {n : Node} (aside : c.aside = true) (mirrored : Mirrored s n.db) (behind : Behind n.db s)
    (same : e.call.aside = true) (ran : c.run server s = .ok (v,s')) :
    Mirrored s' (n.step e).db ∧ Behind (n.step e).db s' := by
  have left := callLeaves aside s v s' ran
  have right := asideStep (n := n) same
  have followed' : ∀ u ∈ followed, u ∈ untouched := fun u listed => List.mem_append_left _ listed
  have mirrored' : Mirrored s (n.step e).db :=
    ⟨fun u listed => right u (followed' u listed) ▸ mirrored.rows u listed,fun u listed other => by
      unfold Database.keys
      rw [right u (followed' u listed)]
      exact mirrored.dense u listed other⟩
  refine ⟨mirroredCongr (fun u listed => by rw [left u (followed' u listed)]) mirrored',fun u listed => ?_⟩
  rw [left u (List.mem_append_right _ listed), right u (List.mem_append_right _ listed)]
  exact behind u listed

theorem sharedMirrored {n : Node} (least : server.Least) (shared : c.aside = false) (forward : c.isFork = false)
    (kempt : Kempt s) (kempt' : Kempt s') (positive : Positive s) (replica : Kempt n.db) (mirrored : Mirrored s n.db)
    (behind : Behind n.db s) (argument : Database.Resolves s' .transactions c.transactionArgument)
    (ran : c.run server s = .ok (v,s')) (lost : TableName → Nat) :
    (Mirrored s' (n.step ⟨server,c.renamed (rank s' .transactions),lost⟩).db ∧
      Behind (n.step ⟨server,c.renamed (rank s' .transactions),lost⟩).db s') ∧
      ∀ k ∈ s.keys .transactions, rank s' .transactions k = rank s .transactions k := by
  have matched := mirroredMatches kempt.valid kempt.serial positive replica.valid replica.serial behind mirrored
  obtain ⟨w,t',returned,_,matched'⟩ := callTwins least shared forward s n.db matched v s' ran
  have dense := densePreserved (forkRenamed.trans forward) replica.valid mirrored.dense returned
  have agree := matchedRank kempt'.serial matched' dense .transactions (by decide)
  have same : c.renamed (rank s' .transactions) = c.renamed (ahead s .transactions) := by
    refine renamedCongr fun k given => ?_
    rw [given] at argument
    exact (agree k argument).symm
  refine ⟨?_,fun k mem => ?_⟩
  · rw [same, stepRan (e := ⟨server,c.renamed (ahead s .transactions),lost⟩) returned]
    exact ⟨matchesMirrored kempt'.valid kempt'.serial matched' dense,matched'.behind⟩
  · rw [← agree k (keysPreserved forward kempt.valid ran k mem)]
    exact aheadStored kempt.serial mem

theorem replayKept (stored : ∀ e ∈ kept, Database.Resolves s .transactions e.call.transactionArgument)
    (agree : ∀ k ∈ s.keys .transactions, rank s' .transactions k = rank s .transactions k) :
    replay s' kept = replay s kept := by
  refine List.map_congr_left fun e mem => ?_
  have found := stored e mem
  unfold Event.renamed
  rw [renamedCongr fun k given => ?_]
  rw [given] at found
  exact agree k found

theorem datedCall (forward : c.isFork = false) (valid : s.Valid) (dated : ∀ k ∈ DB.blockNumbers s, 0 ≤ k)
    (ran : c.run server s = .ok (v,s')) : ∀ k ∈ DB.blockNumbers s', 0 ≤ k := by
  rcases ordinaryOr forward with ordinary | ⟨n,t,i,p,w,rfl⟩
  · have blocks := (callChanges ordinary valid ran).blocks
    simp only [DB.blockNumbers, blocks] at dated ⊢
    exact dated
  · cases negative : below n (some 0) with
    | true =>
      obtain rfl := insBlocksSkips negative ran
      exact dated
    | false =>
      obtain ⟨b,rfl,rfl,_⟩ := insBlocksStores negative ran
      rw [blockNumbersAppend]
      intro k mem
      rcases List.mem_append.mp mem with old | new
      · exact dated k old
      · rw [List.mem_singleton.mp new]
        simpa using negative

theorem replayedCall (least : e.server.Least) (forward : e.call.isFork = false) (order : e.call.InOrder s)
    (kempt : Kempt s) (kempt' : Kempt s') (drawn : ∀ t, 1 ≤ (s t).next) (replayed : Replayed s kept)
    (behind : Behind (run (replay s kept)).db s) (ran : e.call.run e.server s = .ok (v,s')) :
    Replayed s' (kept ++ [e]) ∧ Behind (run (replay s' (kept ++ [e]))).db s' := by
  have positive : Positive s := fun t listed other => ⟨drawn t,replayed.positive t listed other⟩
  have argument := argumentStored replayed.dated (atHeadOf forward order) ran
  have replica := kemptRun (replay s kept)
  have mirrored : (Mirrored s' ((run (replay s kept)).step (e.renamed (rank s' .transactions))).db ∧
      Behind ((run (replay s kept)).step (e.renamed (rank s' .transactions))).db s') ∧
      ∀ k ∈ s.keys .transactions, rank s' .transactions k = rank s .transactions k := by
    cases aside : e.call.aside with
    | false =>
      exact sharedMirrored least aside forward kempt kempt' positive replica replayed.mirrored behind argument ran e.lost
    | true =>
      refine ⟨asideMirrored aside replayed.mirrored behind (asideRenamed.trans aside) ran,fun k _ => ?_⟩
      have left := callLeaves aside s v s' ran
      have shared : ∀ u ∈ followed, (s' u).rows.map (shown u) = (s u).rows.map (shown u) :=
        fun u listed => by rw [left u (List.mem_append_left _ listed)]
      rw [(rankCongr shared (by decide)).2]
  have last : run (replay s' (kept ++ [e])) = (run (replay s kept)).step (e.renamed (rank s' .transactions)) := by
    rw [replay, List.map_append, ← replay, replayKept replayed.stored mirrored.2]
    exact runLast ..
  rw [last]
  refine ⟨⟨datedCall forward kempt.valid replayed.dated ran,fun t listed other => ?_,fun e' mem => ?_,
    last ▸ mirrored.1.1⟩,mirrored.1.2⟩
  · exact (positivePreserved forward kempt.valid positive ran t listed other).2
  · rcases List.mem_append.mp mem with old | new
    · exact Database.resolvesMono (keysPreserved forward kempt.valid ran) (replayed.stored e' old)
    · rw [List.mem_singleton.mp new]
      exact argument

theorem replayedRestored {s₀ : DB} (replayed : Replayed s₀ kept) (restored : Restored s s₀) :
    Replayed s kept ∧ replay s kept = replay s₀ kept := by
  have same : ∀ u ∈ followed, (s u).rows.map (shown u) = (s₀ u).rows.map (shown u) := by
    intro u listed
    by_cases requests : u = .fioRequests
    · subst requests
      exact restored.kept .fioRequests rfl
    · have exact : ∀ u ∈ followed, u ≠ .fioRequests → u ∈ exactTables := by decide
      rw [restoredExactly restored (exact u listed requests)]
  have keys := fun u listed => (rankCongr same (u := u) listed).1
  have again : replay s kept = replay s₀ kept := by
    unfold replay
    rw [(rankCongr same (u := .transactions) (by decide)).2]
  refine ⟨⟨fun k mem => ?_,fun t listed other => ?_,fun e mem => ?_,?_⟩,again⟩
  · change k ∈ s.keys .blocks at mem
    rw [keys .blocks (by decide)] at mem
    exact replayed.dated k mem
  · rw [keys t listed]
    exact replayed.positive t listed other
  · rw [Database.resolvesCongr (keys .transactions (by decide))]
    exact replayed.stored e mem
  · rw [again]
    exact mirroredCongr same replayed.mirrored

end Calls

structure Reorganised (n : Node) (kept : List Event) : Prop where
  drawn : ∀ t, 1 ≤ (n.db t).next
  opens : kept.filterMap Event.opens = DB.blockNumbers n.db
  replayed : ∀ b, 0 ≤ b → Replayed (n.beforeBlock b) (cutBefore b kept)
  behind : ∀ b, 0 ≤ b → Behind (run (replay (n.beforeBlock b) (cutBefore b kept))).db n.db

section Steps
variable {n n' : Node} {e : Event} {kept : List Event} {s' : DB} {v : Option Int} {b c : Int}

theorem reorganisedAbove (standing : Standing n) (reorganised : Reorganised n kept) (nonneg : 0 ≤ b)
    (above : atLeast (DB.head n.db) (some b) = false) :
    n.beforeBlock b = n.db ∧ cutBefore b kept = kept ∧ Replayed n.db kept := by
  have before := beforeAbove standing.stack above
  have cut : cutBefore b kept = kept := cutAll nonneg (reorganised.opens.symm ▸ headBelow.mp above)
  have replayed := reorganised.replayed b nonneg
  rw [before, cut] at replayed
  exact ⟨before,cut,replayed⟩

theorem reorganisedNow (standing : Standing n) (reorganised : Reorganised n kept) :
    Replayed n.db kept ∧ Behind (run (replay n.db kept)).db n.db := by
  have top : ∃ b, 0 ≤ b ∧ atLeast (DB.head n.db) (some b) = false := by
    cases DB.head n.db with
    | none => exact ⟨0,Int.le_refl 0,rfl⟩
    | some h => exact ⟨max 0 (h + 1),by omega,by simp only [atLeastSome, decide_eq_false_iff_not]; omega⟩
  obtain ⟨b,nonneg,above⟩ := top
  obtain ⟨before,cut,now⟩ := reorganisedAbove standing reorganised nonneg above
  have behind := reorganised.behind b nonneg
  rw [before, cut] at behind
  exact ⟨now,behind⟩

theorem opensCall (forward : e.call.isFork = false) (valid : Database.Valid n.db)
    (ran : e.call.run e.server n.db = .ok (v,s')) :
    DB.blockNumbers s' = DB.blockNumbers n.db ++ [e].filterMap Event.opens := by
  have single : [e].filterMap Event.opens = e.opens.toList := by
    cases opens : e.opens with
    | none => simp [opens]
    | some k => simp [opens]
  rw [single]
  rcases ordinaryOr forward with ordinary | ⟨number,t,i,p,w,call⟩
  · have blocks := (callChanges ordinary valid ran).blocks
    have none : e.opens = none := by
      unfold Event.opens
      revert ordinary
      cases e.call <;> intro ordinary <;> first
        | rfl
        | cases ordinary
    simp only [DB.blockNumbers, blocks, none, Option.toList_none, List.append_nil]
  · rw [call] at ran
    unfold Event.opens
    rw [call]
    cases negative : below number (some 0) with
    | true =>
      obtain rfl := insBlocksSkips negative ran
      cases number with
      | none => cases negative
      | some k =>
        have skipped : ¬0 ≤ k := Int.not_le.mpr (by simpa using negative)
        simp [Call.opened, Option.filter, skipped]
    | false =>
      obtain ⟨block,rfl,rfl,_⟩ := insBlocksStores negative ran
      have stored : 0 ≤ block.pkBlockNumber := by simpa using negative
      rw [blockNumbersAppend]
      simp [Call.opened, Option.filter, stored]

theorem beforeLasting (standing : Standing n) (forward : e.call.isFork = false) (order : e.call.InOrder n.db)
    (late : atLeast (DB.head n.db) (some b) = true) : (n.step e).beforeBlock b = n.beforeBlock b := by
  have found : (n.before.find? fun p => decide (b ≤ p.1)) ≠ none := by
    intro nothing
    rw [(nothingLate standing.stack).mp nothing] at late
    cases late
  obtain ⟨p,first⟩ := Option.ne_none_iff_exists'.mp found
  have lasting : ((n.step e).before.find? fun p => decide (b ≤ p.1)) = some p := by
    have move := moved standing order
    generalize n.step e = n' at move ⊢
    cases move with
    | lost => exact first
    | changed => exact first
    | grown => rw [List.find?_append, first]; rfl
    | forked _ _ _ _ call _ =>
      rw [call] at forward
      cases forward
  unfold Node.beforeBlock
  simp only [lasting, first]

theorem openedAt (standing : Standing n) (forward : e.call.isFork = false) (order : e.call.InOrder n.db)
    (opens : kept.filterMap Event.opens = DB.blockNumbers n.db) (nonneg : 0 ≤ b)
    (late : atLeast (DB.head n.db) (some b) = false) (late' : atLeast (DB.head (n.step e).db) (some b) = true)
    (opens' : (kept ++ [e]).filterMap Event.opens = DB.blockNumbers (n.step e).db) :
    (n.step e).beforeBlock b = n.db ∧ atLeast e.call.opened (some b) = true := by
  constructor
  · have nothing := (nothingLate standing.stack).mpr late
    have move := moved standing order
    generalize n.step e = n' at move late' ⊢
    cases move with
    | lost =>
      change atLeast (DB.head n.db) (some b) = true at late'
      rw [late] at late'
      cases late'
    | changed s' v ordinary atHead ran changes =>
      rw [changes.head, late] at late'
      cases late'
    | grown block above valid =>
      have le : b ≤ block.pkBlockNumber := by
        by_contra low
        rw [headBelow.mpr fun k mem => ?_] at late'
        · cases late'
        · rw [blockNumbersAppend] at mem
          rcases List.mem_append.mp mem with old | new
          · exact headBelow.mp late k old
          · rw [List.mem_singleton.mp new]
            omega
      unfold Node.beforeBlock
      simp only [List.find?_append, nothing, Option.none_or, List.find?_singleton, le, decide_true, if_true]
    | forked _ _ _ _ call _ =>
      rw [call] at forward
      cases forward
  · by_contra early
    rw [headBelow.mpr fun k mem => ?_] at late'
    · cases late'
    · rw [← opens', List.filterMap_append, opens] at mem
      rcases List.mem_append.mp mem with old | new
      · exact headBelow.mp late k old
      · obtain ⟨_,single,own⟩ := List.mem_filterMap.mp new
        rw [List.mem_singleton.mp single] at own
        rw [opensLate nonneg, own] at early
        simpa using early

theorem reorganisedCall (least : e.server.Least) (forward : e.call.isFork = false) (order : e.call.InOrder n.db)
    (standing : Standing n) (reorganised : Reorganised n kept) (ran : e.call.run e.server n.db = .ok (v,s')) :
    Reorganised (n.step e) (kept ++ [e]) := by
  have move := moved standing order
  have standing' := standingMoved standing move
  have same : (n.step e).db = s' := stepRan ran
  have opens : (kept ++ [e]).filterMap Event.opens = DB.blockNumbers (n.step e).db := by
    rw [List.filterMap_append, reorganised.opens, same, opensCall forward standing.kempt.valid ran]
  obtain ⟨replayed,behind⟩ := reorganisedNow standing reorganised
  have later : Replayed (n.step e).db (kept ++ [e]) ∧ Behind (run (replay (n.step e).db (kept ++ [e]))).db (n.step e).db := by
    rw [same]
    exact replayedCall least forward order standing.kempt (same ▸ standing'.kempt) reorganised.drawn replayed behind ran
  have grows : ∀ t, (n.db t).next ≤ ((n.step e).db t).next := by
    rw [same]
    refine callKeeps (P := fun m => ∀ t, (n.db t).next ≤ (m t).next) forward standing.kempt.valid (fun b grows t => ?_)
      (fun m m' grows change t => ?_) (fun _ => Int.le_refl _) ran
    · exact Int.le_trans (grows t) (appendNext _ _ _ _)
    · exact Int.le_trans (grows t) (changeNext change t)
  -- Cuts at stored blocks are as they were, the first one above them is the database before the call.
  have each : ∀ b, 0 ≤ b → Replayed ((n.step e).beforeBlock b) (cutBefore b (kept ++ [e])) ∧
      Behind (run (replay ((n.step e).beforeBlock b) (cutBefore b (kept ++ [e])))).db (n.step e).db := by
    intro b nonneg
    cases late : atLeast (DB.head n.db) (some b) with
    | true =>
      have stored : ∃ k ∈ kept.filterMap Event.opens, b ≤ k := by
        rw [reorganised.opens]
        obtain ⟨h,_,top,given,le⟩ := atLeastTrue.mp late
        cases given
        exact ⟨h,(List.max?_eq_some_iff.mp top).1,le⟩
      rw [beforeLasting standing forward order late, cutLast nonneg stored]
      exact ⟨reorganised.replayed b nonneg,(reorganised.behind b nonneg).later grows⟩
    | false =>
      obtain ⟨_,cut,_⟩ := reorganisedAbove standing reorganised nonneg late
      cases late' : atLeast (DB.head (n.step e).db) (some b) with
      | false =>
        rw [beforeAbove standing'.stack late', cutAll nonneg (opens ▸ headBelow.mp late')]
        exact later
      | true =>
        obtain ⟨before,stop⟩ := openedAt standing forward order reorganised.opens nonneg late late' opens
        rw [before, cutStop cut stop]
        exact ⟨replayed,behind.later grows⟩
  exact ⟨fun t => Int.le_trans (reorganised.drawn t) (grows t),opens,fun b nonneg => (each b nonneg).1,
    fun b nonneg => (each b nonneg).2⟩

theorem reorganisedFork (sound : Sound n) (reorganised : Reorganised n kept) (nonneg : 0 ≤ c)
    (call : e.call = .rbFork (some c)) (order : e.call.InOrder n.db) (ran : rbFork (some c) n.db = .ok (v,s')) :
    Reorganised (n.step e) (cutBefore c kept) := by
  have standing := sound.toStanding
  have forked := rbForkForked nonneg standing.kempt ran
  have restored := forkRestores sound nonneg ran
  have standing' := standingMoved standing (moved standing order)
  have target : n.step e = ⟨s',n.before.filter fun p => !decide (c ≤ p.1)⟩ := by
    have stepped : e.call.run e.server n.db = .ok (v,s') := by
      rw [call]
      exact ran
    rw [stepAdvances stepped]
    exact advanceCut standing.stack (forkBlocks forked)
  rw [target] at standing' ⊢
  have opens : (cutBefore c kept).filterMap Event.opens = DB.blockNumbers s' := by
    rw [opensCut nonneg (reorganised.opens.symm ▸ standing.ascending), reorganised.opens, forkBlocks forked]
  have each : ∀ b, 0 ≤ b → Replayed (Node.beforeBlock ⟨s',n.before.filter fun p => !decide (c ≤ p.1)⟩ b)
      (cutBefore b (cutBefore c kept)) ∧ Behind (run (replay (Node.beforeBlock
        ⟨s',n.before.filter fun p => !decide (c ≤ p.1)⟩ b) (cutBefore b (cutBefore c kept)))).db s' := by
    intro b low
    cases late : atLeast (DB.head s') (some b) with
    | false =>
      have before := beforeAbove standing'.stack late
      obtain ⟨replayed,again⟩ := replayedRestored (reorganised.replayed c nonneg) restored
      rw [before, cutAll low (opens.symm ▸ headBelow.mp late)]
      refine ⟨replayed,?_⟩
      rw [again]
      exact (reorganised.behind c nonneg).later forked.next
    | true =>
      obtain ⟨le,same⟩ := beforeCut (standing.stack ▸ standing.ascending) standing'.stack late
      rw [same, cutCut le]
      exact ⟨reorganised.replayed b low,(reorganised.behind b low).later forked.next⟩
  exact ⟨fun t => Int.le_trans (reorganised.drawn t) (forked.next t),opens,fun b low => (each b low).1,
    fun b low => (each b low).2⟩

theorem reorganisedStep (sound : Sound n) (reorganised : Reorganised n kept) (order : e.call.InOrder n.db)
    (returns : Returns n e) (least : e.server.Least) : Reorganised (n.step e) (keep kept e) := by
  have standing := sound.toStanding
  obtain ⟨⟨v,s'⟩,ran⟩ := returned returns
  have unmoved : s' = n.db → n.step e = n := by
    rintro rfl
    rw [stepAdvances ran]
    exact advanceKept standing.stack rfl
  cases forward : e.call.isFork with
  | false =>
    have kept' : keep kept e = kept ++ [e] := by
      unfold keep
      revert forward
      cases e.call <;> intro forward <;> first
        | rfl
        | cases forward
    rw [kept']
    exact reorganisedCall least forward order standing reorganised ran
  | true =>
    cases call : e.call with
    | rbFork number =>
      rw [call] at ran
      cases number with
      | none =>
        rw [unmoved (rbForkNone ran)]
        simpa only [keep, call] using reorganised
      | some c =>
        rcases Int.lt_or_le c 0 with negative | nonneg
        · rw [unmoved (rbForkNegative negative ran)]
          simpa only [keep, call, if_pos negative] using reorganised
        · simp only [keep, call, if_neg (Int.not_lt.mpr nonneg)]
          exact reorganisedFork sound reorganised nonneg call order ran
    | _ =>
      rw [call] at forward
      cases forward

end Steps

section Runs

theorem emptyReorganised : Reorganised Node.empty [] where
  drawn := fun _ => Int.le_refl 1
  opens := rfl
  replayed := fun _ _ =>
    { dated := fun _ mem => absurd mem List.not_mem_nil
      positive := fun _ _ _ _ mem => absurd mem List.not_mem_nil
      stored := fun _ mem => absurd mem List.not_mem_nil
      mirrored := ⟨fun _ _ => .nil,fun _ _ _ => ⟨rfl,rfl⟩⟩ }
  behind := fun _ _ _ _ => ⟨(by decide : (0 : Int) ≤ 1),Int.le_refl _⟩

theorem reorganisedRun {history : List Event} (order : ChainOrder history) (returns : Meets Returns history)
    (least : ∀ e ∈ history, e.server.Least) : Sound (run history) ∧ Reorganised (run history) (survivors history) := by
  have along : ∀ n kept, Sound n → Reorganised n kept → MeetsFrom (fun n e => e.call.InOrder n.db) n history →
      MeetsFrom Returns n history →
        Sound (runFrom n history) ∧ Reorganised (runFrom n history) (history.foldl keep kept) := by
    clear order returns
    induction history with
    | nil => exact fun n kept sound reorganised _ _ => ⟨sound,reorganised⟩
    | cons e rest ih =>
      intro n kept sound reorganised ⟨first,later⟩ ⟨met,later'⟩
      have sound' := soundMoved sound (moved sound.toStanding first)
      have step := reorganisedStep sound reorganised first met (least e List.mem_cons_self)
      exact ih (fun e' mem => least e' (List.mem_cons_of_mem _ mem)) (n.step e) (keep kept e) sound' step later later'
  exact along Node.empty [] emptySound emptyReorganised order returns

end Runs

theorem reorganisationsConverge {history : List Event} (order : ChainOrder history) (returns : Meets Returns history)
    (least : ∀ e ∈ history, e.server.Least) :
    ∀ t ∈ compared, StrictMonoOn (rank (run history).db t) {k | k ∈ (run history).db.keys t} ∧
      ((run (replay (run history).db (survivors history))).db t).rows =
        ((run history).db t).rows.map (renumber (rank (run history).db) t) := by
  intro t listed
  refine ⟨rankAscends,?_⟩
  obtain ⟨sound,reorganised⟩ := reorganisedRun order returns least
  have mirrored := (reorganisedNow sound.toStanding reorganised).1.mirrored
  have twins := mirrored.rows t (List.mem_cons_of_mem _ listed)
  have whole : ∀ t ∈ compared, t ≠ .fioRequests := by decide
  have plain : ∀ r : Row t, shown t r = r := by
    have other := whole t listed
    intro r
    cases t <;> first
      | rfl
      | exact absurd rfl other
  simp only [plain] at twins
  rw [← List.forall₂_map_left_iff (f := renumber (rank (run history).db) t) (R := fun x r' => r' = x)] at twins
  have flipped : List.Forall₂ Eq ((run (replay (run history).db (survivors history))).db t).rows
      (((run history).db t).rows.map (renumber (rank (run history).db) t)) := twins.flip
  rwa [List.forall₂_eq_eq_eq] at flipped

def restored : List Call :=
  [.insBlocks (some 1) none (some "b1") none none,
    .insTransactions (some 1) none (some "x") (some "eosio") (some "alice") (some "setpriv") none none none none none,
    .rbFork (some 1),
    .insBlocks (some 1) none (some "c1") none none,
    .insTransactions (some 1) none (some "x") (some "eosio") (some "alice") (some "setpriv") none none none none none,
    .insTraces (some 2) (some 1) (some "eosio") (some "alice") none (some "setpriv") none none]

theorem eventsLeast {calls : List Call} : ∀ e ∈ events calls, e.server.Least := by
  intro e mem
  obtain ⟨_,_,rfl⟩ := List.mem_map.mp mem
  exact fun _ _ _ => Nat.zero_mod _

theorem reorganisationsConvergeRestored : (survivors (events restored)).length = 3 ∧ ∀ t ∈ compared,
    StrictMonoOn (rank (run (events restored)).db t) {k | k ∈ (run (events restored)).db.keys t} ∧
      ((run (replay (run (events restored)).db (survivors (events restored)))).db t).rows =
        ((run (events restored)).db t).rows.map (renumber (rank (run (events restored)).db) t) :=
  ⟨rfl,reorganisationsConverge (by decide +kernel) (by decide +kernel) eventsLeast⟩

theorem givenIdsDiverge : ChainOrder (events restored) ∧ Meets Returns (events restored) ∧
    (∀ e ∈ events restored, e.server.Least) ∧
    ¬∃ ids : TableName → Int → Int,
      (∀ t ∈ compared, StrictMonoOn (ids t) {k | k ∈ (run (events restored)).db.keys t}) ∧
      ∀ t ∈ compared, ((run (survivors (events restored))).db t).rows =
        ((run (events restored)).db t).rows.map (renumber ids t) := by
  refine ⟨by decide +kernel,by decide +kernel,eventsLeast,fun ⟨ids,_,same⟩ => ?_⟩
  have traces := congrArg List.length (same .traces (by decide))
  have raised : ((run (survivors (events restored))).db .traces).rows = [] := by decide +kernel
  have stored : ((run (events restored)).db .traces).rows.length = 1 := by decide +kernel
  rw [raised, List.length_map, stored] at traces
  cases traces

end FioRelic

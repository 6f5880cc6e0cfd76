import Mathlib.Data.List.Basic
import Mathlib.Data.List.Nodup
import Mathlib.Data.List.Pairwise
import FioRelic.Relational.Null

/-! A table whose replaced rows are kept in a log. An entry holds the row it
replaced and the block that replaced it; the first entry of a key at or after a cut
is the row as it was before the cut. Rewinding reads the whole table that way. -/
namespace FioRelic.Versioning
open Relational (atLeast atLeastTrue)

structure Layout (ρ α : Type) where
  key : ρ → Int
  stamp : ρ → Option Int
  row : α → ρ
  written : α → Option Int

namespace Layout
variable {ρ α : Type} (L : Layout ρ α)

def entity (a : α) : Int := L.key (L.row a)

def find (rows : List ρ) (x : Int) : Option ρ := rows.find? fun r => decide (L.key r = x)

def replaced (cut : Option Int) (log : List α) (x : Int) : Option α :=
  log.find? fun a => decide (L.entity a = x) && atLeast (L.written a) cut

def version (cut : Option Int) (rows : List ρ) (log : List α) (x : Int) : Option ρ :=
  match L.replaced cut log x with
  | some a => some (L.row a)
  | none => L.find rows x

def rewind (cut : Option Int) (rows : List ρ) (log : List α) (x : Int) : Option ρ :=
  (L.version cut rows log x).filter fun r => !atLeast (L.stamp r) cut

def lateEntry (cut : Option Int) (a : α) : Bool :=
  atLeast (L.stamp (L.row a)) cut || atLeast (L.written a) cut

structure Write (now : Option Int) (rows rows' : List ρ) (entries : List α) : Prop where
  written : ∀ e ∈ entries, L.written e = now
  once : (entries.map L.entity).Nodup
  old : ∀ e ∈ entries, L.find rows (L.entity e) = some (L.row e)
  kept : ∀ x, x ∉ entries.map L.entity → L.find rows' x = L.find rows x

structure Ordered (log : List α) : Prop where
  within : ∀ a ∈ log, ∀ d o, L.stamp (L.row a) = some d → L.written a = some o → d ≤ o
  ascending : log.Pairwise fun a a' => ∀ o o', L.written a = some o → L.written a' = some o' → o ≤ o'

end Layout

section
variable {ρ α : Type} {L : Layout ρ α} {rows rows' : List ρ} {log entries : List α} {x : Int}

theorem findMem {r : ρ} (h : L.find rows x = some r) : r ∈ rows ∧ L.key r = x :=
  ⟨List.mem_of_find?_eq_some h,by simpa using List.find?_some h⟩

theorem findNone : L.find rows x = none ↔ ∀ r ∈ rows, L.key r ≠ x := by
  simp [Layout.find]

theorem findOfMem (nodup : (rows.map L.key).Nodup) {r : ρ} (mem : r ∈ rows) :
    L.find rows (L.key r) = some r := by
  induction rows with
  | nil => simp at mem
  | cons head tail ih =>
    obtain ⟨fresh,nodup⟩ := List.nodup_cons.mp nodup
    rcases List.mem_cons.mp mem with rfl | rest
    · simp [Layout.find]
    · have different : L.key head ≠ L.key r := fun same =>
        fresh (List.mem_map.mpr ⟨r,rest,same.symm⟩)
      simpa [Layout.find, different] using ih nodup rest

theorem findFilter (nodup : (rows.map L.key).Nodup) (p : ρ → Bool) (x : Int) :
    L.find (rows.filter p) x = (L.find rows x).filter p := by
  cases found : L.find rows x with
  | none =>
    have absent := findNone.mp found
    exact findNone.mpr fun r mem => absent r (List.mem_filter.mp mem).1
  | some r =>
    obtain ⟨mem,rfl⟩ := findMem found
    cases keep : p r with
    | true =>
      have nodup' : ((rows.filter p).map L.key).Nodup := nodup.sublist (List.filter_sublist.map _)
      rw [findOfMem nodup' (List.mem_filter.mpr ⟨mem,keep⟩)]
      simp [Option.filter, keep]
    | false =>
      simp only [Option.filter, keep, Bool.false_eq_true, if_false]
      refine findNone.mpr fun r' mem' same => ?_
      obtain ⟨inRows,keep'⟩ := List.mem_filter.mp mem'
      have found' := findOfMem nodup inRows
      rw [same, found] at found'
      cases found'
      simp [keep] at keep'

theorem replacedSpec {cut : Option Int} {a : α} (h : L.replaced cut log x = some a) :
    a ∈ log ∧ L.entity a = x ∧ atLeast (L.written a) cut = true := by
  have found := List.find?_some h
  simp only [Bool.and_eq_true, decide_eq_true_eq] at found
  exact ⟨List.mem_of_find?_eq_some h,found.1,found.2⟩

theorem replacedNone {cut : Option Int} : L.replaced cut log x = none ↔
    ∀ a ∈ log, L.entity a = x → atLeast (L.written a) cut = false := by
  simp [Layout.replaced]

theorem replacedAppend (cut : Option Int) : L.replaced cut (log ++ entries) x =
    (L.replaced cut log x).or (L.replaced cut entries x) := by
  simp [Layout.replaced, List.find?_append]

theorem findCongr {σ : Type} {v w : σ → ρ} {source : List σ} (keyed : ∀ r ∈ source, L.key (w r) = L.key (v r))
    (agree : ∀ r ∈ source, L.key (v r) = x → w r = v r) :
    L.find (source.map w) x = L.find (source.map v) x := by
  induction source with
  | nil => rfl
  | cons head tail ih =>
    have rest := ih (fun r mem => keyed r (List.mem_cons_of_mem _ mem))
      fun r mem => agree r (List.mem_cons_of_mem _ mem)
    unfold Layout.find at rest ⊢
    simp only [List.map_cons, List.find?_cons, keyed head List.mem_cons_self]
    cases hit : decide (L.key (v head) = x) with
    | true => simp only [agree head List.mem_cons_self (of_decide_eq_true hit)]
    | false => exact rest

section Statements
variable {σ : Type} {now : Option Int} {v : σ → ρ} {source hits : List σ}

def Logs (L : Layout ρ α) (v : σ → ρ) (now : Option Int) (hits : List σ) (entries : List α) : Prop :=
  List.Forall₂ (fun r e => L.row e = v r ∧ L.written e = now) hits entries

theorem loggedEntities (logged : Logs L v now hits entries) :
    entries.map L.entity = (hits.map v).map L.key := by
  induction logged with
  | nil => rfl
  | cons head tail ih => simp only [List.map_cons, Layout.entity, head.1, ih]

theorem loggedSource (logged : Logs L v now hits entries) {e : α} (mem : e ∈ entries) :
    ∃ r ∈ hits, L.row e = v r ∧ L.written e = now := by
  induction logged with
  | nil => simp at mem
  | cons head tail ih =>
    rcases List.mem_cons.mp mem with rfl | rest
    · exact ⟨_,List.mem_cons_self,head⟩
    · obtain ⟨r,hr,facts⟩ := ih rest
      exact ⟨r,List.mem_cons_of_mem _ hr,facts⟩

theorem writeLogged {rows' : List ρ} (nodup : ((source.map v).map L.key).Nodup) (sub : hits.Sublist source)
    (logged : Logs L v now hits entries)
    (kept : ∀ x, x ∉ (hits.map v).map L.key → L.find rows' x = L.find (source.map v) x) :
    L.Write now (source.map v) rows' entries where
  written := fun e mem => by
    obtain ⟨_,_,_,written⟩ := loggedSource logged mem
    exact written
  once := by
    rw [loggedEntities logged]
    exact nodup.sublist ((sub.map v).map L.key)
  old := fun e mem => by
    obtain ⟨r,hr,row,_⟩ := loggedSource logged mem
    unfold Layout.entity
    rw [row]
    exact findOfMem nodup (List.mem_map_of_mem (sub.subset hr))
  kept := fun x fresh => kept x (by rwa [← loggedEntities logged])

theorem writeUpdate {f : σ → σ} (nodup : ((source.map v).map L.key).Nodup)
    (keyed : ∀ r ∈ source, L.key (v (f r)) = L.key (v r)) (sub : hits.Sublist source)
    (others : ∀ r ∈ source, r ∉ hits → f r = r) (logged : Logs L v now hits entries) :
    L.Write now (source.map v) ((source.map f).map v) entries := by
  refine writeLogged nodup sub logged fun x fresh => ?_
  rw [List.map_map]
  refine findCongr keyed fun r mem same => ?_
  have missed : r ∉ hits := fun hit =>
    fresh (List.mem_map.mpr ⟨v r,List.mem_map_of_mem hit,same⟩)
  simp only [Function.comp, others r mem missed]

theorem writeDelete {p : σ → Bool} (nodup : ((source.map v).map L.key).Nodup)
    (logged : Logs L v now (source.filter p) entries) :
    L.Write now (source.map v) ((source.filter fun r => !p r).map v) entries := by
  refine writeLogged nodup List.filter_sublist logged fun x fresh => ?_
  cases found : L.find (source.map v) x with
  | none =>
    have absent := findNone.mp found
    exact findNone.mpr fun r mem => absent r (((List.filter_sublist).map v).subset mem)
  | some y =>
    obtain ⟨mem,same⟩ := findMem found
    obtain ⟨r,inSource,rfl⟩ := List.mem_map.mp mem
    have missed : p r = false := by
      cases hit : p r with
      | false => rfl
      | true =>
        have hitMem : r ∈ source.filter p := List.mem_filter.mpr ⟨inSource,hit⟩
        exact absurd (List.mem_map.mpr ⟨v r,List.mem_map_of_mem hitMem,same⟩) fresh
    have stays : v r ∈ (source.filter fun r => !p r).map v :=
      List.mem_map_of_mem (List.mem_filter.mpr ⟨inSource,by simp [missed]⟩)
    have nodup' : (((source.filter fun r => !p r).map v).map L.key).Nodup :=
      nodup.sublist ((List.filter_sublist.map v).map L.key)
    rw [← same]
    exact findOfMem nodup' stays

end Statements

theorem versionWrite {now cut : Option Int} (write : L.Write now rows rows' entries)
    (late : atLeast now cut = true) (x : Int) :
    L.version cut rows' (log ++ entries) x = L.version cut rows log x := by
  unfold Layout.version
  rw [replacedAppend]
  cases old : L.replaced cut log x with
  | some a => rfl
  | none =>
    simp only [Option.none_or]
    cases new : L.replaced cut entries x with
    | some e =>
      obtain ⟨mem,same,_⟩ := replacedSpec new
      have before := write.old e mem
      rw [same] at before
      exact before.symm
    | none =>
      refine write.kept x fun listed => ?_
      obtain ⟨e,mem,same⟩ := List.mem_map.mp listed
      have quiet := replacedNone.mp new e mem same
      rw [write.written e mem] at quiet
      simp [late] at quiet

theorem rewindWrite {now cut : Option Int} (write : L.Write now rows rows' entries)
    (late : atLeast now cut = true) (x : Int) :
    L.rewind cut rows' (log ++ entries) x = L.rewind cut rows log x := by
  unfold Layout.rewind
  rw [versionWrite write late]

theorem versionInsert {cut : Option Int} {r : ρ} (freshRow : L.find rows (L.key r) = none)
    (freshLog : ∀ a ∈ log, L.entity a ≠ L.key r) (x : Int) :
    L.version cut (rows ++ [r]) log x = if x = L.key r then some r else L.version cut rows log x := by
  unfold Layout.version
  by_cases same : x = L.key r
  · subst x
    have quiet : L.replaced cut log (L.key r) = none :=
      replacedNone.mpr fun a mem same => absurd same (freshLog a mem)
    have absent := freshRow
    unfold Layout.find at absent
    simp [quiet, Layout.find, List.find?_append, absent]
  · have different : ¬ L.key r = x := fun h => same h.symm
    have other : L.find (rows ++ [r]) x = L.find rows x := by
      simp [Layout.find, List.find?_append, different]
    rw [other, if_neg same]

theorem rewindInsert {cut : Option Int} {r : ρ} (freshRow : L.find rows (L.key r) = none)
    (freshLog : ∀ a ∈ log, L.entity a ≠ L.key r) (x : Int) :
    L.rewind cut (rows ++ [r]) log x =
      if x = L.key r then (some r).filter (fun r => !atLeast (L.stamp r) cut)
      else L.rewind cut rows log x := by
  unfold Layout.rewind
  rw [versionInsert freshRow freshLog]
  split <;> rfl

theorem rewindInsertLate {cut : Option Int} {r : ρ} (freshRow : L.find rows (L.key r) = none)
    (freshLog : ∀ a ∈ log, L.entity a ≠ L.key r) (late : atLeast (L.stamp r) cut = true) (x : Int) :
    L.rewind cut (rows ++ [r]) log x = L.rewind cut rows log x := by
  rw [rewindInsert freshRow freshLog]
  split
  · rename_i same
    subst x
    have quiet : L.replaced cut log (L.key r) = none :=
      replacedNone.mpr fun a mem same => absurd same (freshLog a mem)
    simp [Layout.rewind, Layout.version, quiet, freshRow, Option.filter, late]
  · rfl

theorem rewindSettled {cut : Option Int} (calm : ∀ a ∈ log, atLeast (L.written a) cut = false)
    (early : ∀ r ∈ rows, atLeast (L.stamp r) cut = false) (x : Int) :
    L.rewind cut rows log x = L.find rows x := by
  have quiet : L.replaced cut log x = none := replacedNone.mpr fun a mem _ => calm a mem
  unfold Layout.rewind Layout.version
  rw [quiet]
  cases found : L.find rows x with
  | none => rfl
  | some r => simp [Option.filter, early r (findMem found).1]

theorem findFirst {p q : α → Bool} {a : α} (first : log.find? q = some a) (passes : p a = true) :
    (log.filter p).find? q = some a := by
  induction log with
  | nil => simp at first
  | cons head tail ih =>
    by_cases hit : q head = true
    · have same : head = a := by simpa [List.find?_cons, hit] using first
      subst same
      simp [passes, hit]
    · have later : tail.find? q = some a := by simpa [List.find?_cons, hit] using first
      by_cases keep : p head = true
      · simpa [keep, hit] using ih later
      · simpa [keep] using ih later

theorem replacedOldest {cut : Option Int} {a a' : α} (ordered : L.Ordered log)
    (first : L.replaced cut log x = some a) (mem : a' ∈ log) (same : L.entity a' = x)
    (late : atLeast (L.written a') cut = true) :
    ∀ o o', L.written a = some o → L.written a' = some o' → o ≤ o' := by
  have ascending := ordered.ascending
  unfold Layout.replaced at first
  clear ordered
  induction log with
  | nil => simp at mem
  | cons head tail ih =>
    obtain ⟨before,ascending⟩ := List.pairwise_cons.mp ascending
    by_cases hit : (decide (L.entity head = x) && atLeast (L.written head) cut) = true
    · have found : head = a := by simpa [List.find?_cons, hit] using first
      subst found
      rcases List.mem_cons.mp mem with rfl | rest
      · intro o o' h h'
        have equal : o = o' := Option.some.inj (h.symm.trans h')
        omega
      · exact before a' rest
    · have later : tail.find? (fun a => decide (L.entity a = x) && atLeast (L.written a) cut) = some a := by
        simpa [List.find?_cons, hit] using first
      rcases List.mem_cons.mp mem with rfl | rest
      · simp [same, late] at hit
      · exact ih later rest ascending

theorem atLeastMono {y : Option Int} {b c : Int} (le : b ≤ c) (h : atLeast y (some c) = true) :
    atLeast y (some b) = true := by
  obtain ⟨n,m,rfl,hm,bound⟩ := atLeastTrue.mp h
  cases hm
  simp only [Relational.atLeastSome, decide_eq_true_eq]
  omega

theorem filterFilterMono {y : Option ρ} {b c : Int} (le : b ≤ c) :
    (y.filter fun r => !atLeast (L.stamp r) (some c)).filter (fun r => !atLeast (L.stamp r) (some b)) =
      y.filter fun r => !atLeast (L.stamp r) (some b) := by
  cases y with
  | none => rfl
  | some r =>
    cases late : atLeast (L.stamp r) (some c) with
    | false => simp [Option.filter, late]
    | true => simp [Option.filter, late, atLeastMono le late]

theorem notLater {y : Option Int} {c n : Int} (h : y = some n) :
    atLeast y (some c) = false ↔ n < c := by
  subst h
  simp

theorem replacedCut {b c : Int} (ordered : L.Ordered log) :
    L.replaced (some b) (log.filter fun a => !L.lateEntry (some c) a) x =
      (L.replaced (some b) log x).filter fun a => !atLeast (L.written a) (some c) := by
  cases first : L.replaced (some b) log x with
  | none =>
    have quiet := replacedNone.mp first
    exact replacedNone.mpr fun a mem same => quiet a (List.mem_filter.mp mem).1 same
  | some a =>
    obtain ⟨mem,same,late⟩ := replacedSpec first
    obtain ⟨o,_,written,_,_⟩ := atLeastTrue.mp late
    cases cut : atLeast (L.written a) (some c) with
    | false =>
      have below := (notLater written).mp cut
      have passes : (!L.lateEntry (some c) a) = true := by
        have early : atLeast (L.stamp (L.row a)) (some c) = false := by
          cases stamped : L.stamp (L.row a) with
          | none => rfl
          | some d =>
            have := ordered.within a mem d o stamped written
            exact (notLater rfl).mpr (by omega)
        simp [Layout.lateEntry, early, cut]
      simp only [Option.filter, cut, Bool.not_false, if_true]
      exact findFirst first passes
    | true =>
      simp only [Option.filter, cut, Bool.not_true, Bool.false_eq_true, if_false]
      refine replacedNone.mpr fun a' mem' same' => ?_
      obtain ⟨inLog,keep⟩ := List.mem_filter.mp mem'
      cases late' : atLeast (L.written a') (some b) with
      | false => rfl
      | true =>
        obtain ⟨o',_,written',_,_⟩ := atLeastTrue.mp late'
        have older := replacedOldest ordered first inLog same' late' o o' written written'
        have early : atLeast (L.written a') (some c) = false := by
          simp only [Layout.lateEntry, Bool.not_or, Bool.and_eq_true, Bool.not_eq_true'] at keep
          exact keep.2
        have := (notLater written').mp early
        obtain ⟨n,m,hn,hm,bound⟩ := atLeastTrue.mp cut
        cases hm
        have : n = o := Option.some.inj (hn.symm.trans written)
        omega

theorem replacedDeeper {b c : Int} (le : b ≤ c) {a : α} (first : L.replaced (some b) log x = some a)
    (late : atLeast (L.written a) (some c) = true) : L.replaced (some c) log x = some a := by
  have same := (replacedSpec first).2.1
  unfold Layout.replaced at first ⊢
  induction log with
  | nil => simp at first
  | cons head tail ih =>
    cases hit : (decide (L.entity head = x) && atLeast (L.written head) (some b)) with
    | true =>
      have found : head = a := by simpa [List.find?_cons, hit] using first
      subst found
      simp [same, late]
    | false =>
      have missed : (decide (L.entity head = x) && atLeast (L.written head) (some c)) = false := by
        cases entity : decide (L.entity head = x) with
        | false => rfl
        | true =>
          cases later : atLeast (L.written head) (some c) with
          | false => rfl
          | true => simp [entity, atLeastMono le later] at hit
      rw [List.find?_cons, missed]
      exact ih (by simpa [List.find?_cons, hit] using first)

theorem replacedNoneDeeper {b c : Int} (le : b ≤ c) (first : L.replaced (some b) log x = none) :
    L.replaced (some c) log x = none := by
  refine replacedNone.mpr fun a mem same => ?_
  cases late : atLeast (L.written a) (some c) with
  | false => rfl
  | true =>
    have quiet := replacedNone.mp first a mem same
    rw [atLeastMono le late] at quiet
    exact quiet

theorem rewindRewind {b c : Int} (le : b ≤ c) (ordered : L.Ordered log)
    (rewound : L.find rows' x = L.rewind (some c) rows log x) :
    L.rewind (some b) rows' (log.filter fun a => !L.lateEntry (some c) a) x =
      L.rewind (some b) rows log x := by
  have cut := replacedCut (b := b) (c := c) (x := x) ordered
  cases first : L.replaced (some b) log x with
  | none =>
    rw [first] at cut
    have atC := replacedNoneDeeper le first
    simp only [Layout.rewind, Layout.version, cut, Option.filter, first, rewound, atC]
    exact filterFilterMono le
  | some a =>
    rw [first] at cut
    cases late : atLeast (L.written a) (some c) with
    | false =>
      simp only [Option.filter, late, Bool.not_false, if_true] at cut
      simp only [Layout.rewind, Layout.version, cut, first]
    | true =>
      simp only [Option.filter, late, Bool.not_true, Bool.false_eq_true, if_false] at cut
      have atC := replacedDeeper le first late
      simp only [Layout.rewind, Layout.version, cut, first, rewound, atC]
      exact filterFilterMono le

theorem orderedAppend {now : Option Int} (ordered : L.Ordered log)
    (past : ∀ a ∈ log, ∀ o, L.written a = some o → ∃ m, now = some m ∧ o ≤ m)
    (written : ∀ e ∈ entries, L.written e = now)
    (stamped : ∀ e ∈ entries, ∀ d, L.stamp (L.row e) = some d → ∃ m, now = some m ∧ d ≤ m) :
    L.Ordered (log ++ entries) where
  within := by
    intro a mem d o hd ho
    rcases List.mem_append.mp mem with old | new
    · exact ordered.within a old d o hd ho
    · obtain ⟨m,hm,le⟩ := stamped a new d hd
      have same : o = m := Option.some.inj (ho.symm.trans ((written a new).trans hm))
      omega
  ascending := by
    refine List.pairwise_append.mpr ⟨ordered.ascending,?_,?_⟩
    · refine List.pairwise_of_forall_mem_list ?_
      intro a ha a' ha' o o' ho ho'
      rw [written a ha] at ho
      rw [written a' ha', ho] at ho'
      have same : o = o' := Option.some.inj ho'
      omega
    · intro a ha a' ha' o o' ho ho'
      obtain ⟨m,hm,le⟩ := past a ha o ho
      rw [written a' ha', hm] at ho'
      have same : m = o' := Option.some.inj ho'
      omega

theorem orderedFilter (ordered : L.Ordered log) (p : α → Bool) : L.Ordered (log.filter p) where
  within := fun a mem => ordered.within a (List.mem_filter.mp mem).1
  ascending := ordered.ascending.sublist List.filter_sublist

theorem sortedExt (sorted : (rows.map L.key).Pairwise (· < ·)) (sorted' : (rows'.map L.key).Pairwise (· < ·))
    (same : ∀ x, L.find rows x = L.find rows' x) : rows = rows' := by
  have nodup := sorted.imp (fun {a b} (h : a < b) => Int.ne_of_lt h)
  have nodup' := sorted'.imp (fun {a b} (h : a < b) => Int.ne_of_lt h)
  have members : ∀ r, r ∈ rows ↔ r ∈ rows' := by
    intro r
    constructor
    · intro mem
      exact (findMem ((same (L.key r)).symm.trans (findOfMem nodup mem))).1
    · intro mem
      exact (findMem ((same (L.key r)).trans (findOfMem nodup' mem))).1
  have ordered : rows.Pairwise (fun r r' => L.key r < L.key r') := List.pairwise_map.mp sorted
  have ordered' : rows'.Pairwise (fun r r' => L.key r < L.key r') := List.pairwise_map.mp sorted'
  have perm : rows.Perm rows' :=
    (List.perm_ext_iff_of_nodup (List.Nodup.of_map _ nodup) (List.Nodup.of_map _ nodup')).mpr members
  exact perm.eq_of_pairwise (fun a b _ _ h h' => absurd h (by omega)) ordered ordered'

end
end FioRelic.Versioning

import Mathlib.Data.List.Perm.Basic
import Mathlib.Tactic.Set
import Mathlib.Data.List.Dedup
import FioRelic.Versioning.Rewind

/-! Rewinding when removed rows come back under fresh keys. A key no longer names the
same row on both sides of a cut, so tables are compared by content, as multisets. A
removed row keeps its old entries; the dates in the log decide which cuts they answer. -/
namespace FioRelic.Versioning
open Relational (atLeast atLeastTrue)

def Gathers {ρ γ : Type} (content : ρ → γ) (f : Int → Option ρ) (ys : List ρ) : Prop :=
  ∃ keys : List Int, keys.Nodup ∧ (∀ x, f x ≠ none → x ∈ keys) ∧
    (ys.map content).Perm ((keys.filterMap f).map content)

section
variable {ρ γ : Type} {content : ρ → γ} {f : Int → Option ρ} {ys zs : List ρ}

theorem filterMapCovering {xs xs' : List Int} (nodup : xs.Nodup) (nodup' : xs'.Nodup)
    (cover : ∀ x, f x ≠ none → x ∈ xs) (cover' : ∀ x, f x ≠ none → x ∈ xs') :
    (xs.filterMap f).Perm (xs'.filterMap f) := by
  have drop : ∀ zs : List Int, zs.filterMap f = (zs.filter fun x => (f x).isSome).filterMap f := by
    intro zs
    induction zs with
    | nil => rfl
    | cons z zs ih =>
      cases hit : f z with
      | none => simpa [hit] using ih
      | some y => simpa [hit] using ih
  rw [drop xs, drop xs']
  refine List.Perm.filterMap f ?_
  refine (List.perm_ext_iff_of_nodup (nodup.filter _) (nodup'.filter _)).mpr fun x => ?_
  simp only [List.mem_filter, Option.isSome_iff_ne_none]
  exact ⟨fun h => ⟨cover' x h.2,h.2⟩,fun h => ⟨cover x h.2,h.2⟩⟩

theorem gathersOver (h : Gathers content f ys) {xs : List Int} (nodup : xs.Nodup)
    (cover : ∀ x, f x ≠ none → x ∈ xs) : (ys.map content).Perm ((xs.filterMap f).map content) := by
  obtain ⟨keys,nodup',cover',perm⟩ := h
  exact perm.trans ((filterMapCovering nodup' nodup cover' cover).map content)

theorem gathersUnique (h : Gathers content f ys) (h' : Gathers content f zs) :
    (ys.map content).Perm (zs.map content) := by
  obtain ⟨keys,nodup,cover,perm⟩ := h'
  exact (gathersOver h nodup cover).trans perm.symm

theorem findAll {α : Type} {L : Layout ρ α} {rows : List ρ} (nodup : (rows.map L.key).Nodup) :
    (rows.map L.key).filterMap (L.find rows) = rows := by
  rw [List.filterMap_map]
  calc rows.filterMap (L.find rows ∘ L.key) = rows.filterMap some :=
        List.filterMap_congr fun r mem => findOfMem nodup mem
    _ = rows := List.filterMap_some

theorem gathersFind {α : Type} {L : Layout ρ α} {rows : List ρ} (nodup : (rows.map L.key).Nodup) :
    Gathers content (L.find rows) rows := by
  refine ⟨rows.map L.key,nodup,fun x found => ?_,?_⟩
  · obtain ⟨r,hr⟩ := Option.ne_none_iff_exists'.mp found
    obtain ⟨mem,same⟩ := findMem hr
    exact List.mem_map.mpr ⟨r,mem,same⟩
  · rw [findAll nodup]

end

namespace Layout
variable {ρ α : Type} (L : Layout ρ α)

/- How the dates of a key succeed one another: no row is stamped before an earlier
entry of its key replaced its predecessor. -/
structure Chained (rows : List ρ) (log : List α) : Prop extends L.Ordered log where
  succeeds : log.Pairwise fun a a' => L.entity a = L.entity a' →
    ∀ o, L.written a = some o → ∃ d, L.stamp (L.row a') = some d ∧ o ≤ d
  current : ∀ a ∈ log, ∀ r ∈ rows, L.key r = L.entity a →
    ∀ o, L.written a = some o → ∃ d, L.stamp r = some d ∧ o ≤ d

def known (rows : List ρ) (log : List α) : List Int := (rows.map L.key ++ log.map L.entity).dedup

structure Reinserts {γ : Type} (content : ρ → γ) (cut : Option Int) (rows : List ρ) (log : List α)
    (kept : List ρ) (gone : List Int) (back : List ρ) : Prop where
  rewound : ∀ x, L.find kept x = (L.find rows x).bind fun _ => L.rewind cut rows log x
  once : gone.Nodup
  removed : ∀ x, x ∈ gone ↔ L.find rows x = none ∧ L.replaced cut log x ≠ none
  copied : List.Forall₂ (fun x r => ∃ a, L.replaced cut log x = some a ∧ content r = content (L.row a)) gone back
  distinct : (back.map L.key).Nodup
  unused : ∀ r ∈ back, (∀ r' ∈ rows, L.key r' ≠ L.key r) ∧ ∀ a ∈ log, L.entity a ≠ L.key r

end Layout

section
variable {ρ α γ : Type} {L : Layout ρ α} {content : ρ → γ} {rows kept back : List ρ} {log : List α}
  {gone : List Int}

theorem succeedsOf (h : L.Chained rows log) {cut : Option Int} {x : Int} {b : Int} {a e : α}
    (early : L.replaced (some b) log x = some e) (later : L.replaced cut log x = some a) (differ : e ≠ a)
    (narrower : ∀ a' ∈ log, atLeast (L.written a') cut = true → atLeast (L.written a') (some b) = true) :
    ∀ o, L.written e = some o → ∃ d, L.stamp (L.row a) = some d ∧ o ≤ d := by
  have succeeds := h.succeeds
  unfold Layout.replaced at early later
  clear h
  induction log with
  | nil => simp at early
  | cons head tail ih =>
    obtain ⟨before,succeeds⟩ := List.pairwise_cons.mp succeeds
    cases hit : (decide (L.entity head = x) && atLeast (L.written head) (some b)) with
    | true =>
      have found : head = e := by simpa [List.find?_cons, hit] using early
      subst found
      have mem := List.mem_of_find?_eq_some later
      have facts := List.find?_some later
      simp only [Bool.and_eq_true, decide_eq_true_eq] at facts hit
      rcases List.mem_cons.mp mem with same | rest
      · exact absurd same.symm differ
      · exact before a rest (hit.1.trans facts.1.symm)
    | false =>
      have missed : (decide (L.entity head = x) && atLeast (L.written head) cut) = false := by
        cases entity : decide (L.entity head = x) with
        | false => rfl
        | true =>
          cases late : atLeast (L.written head) cut with
          | false => rfl
          | true => simp [entity, narrower head List.mem_cons_self late] at hit
      refine ih ?_ ?_ (fun a' mem => narrower a' (List.mem_cons_of_mem _ mem)) succeeds
      · simpa [List.find?_cons, hit] using early
      · simpa [List.find?_cons, missed] using later

section Rewound
variable {b c : Int} (le : b ≤ c) (chained : L.Chained rows log)
  (done : L.Reinserts content (some c) rows log kept gone back)
include le chained done

theorem rewindStaying {x : Int} (notBack : ∀ r ∈ back, L.key r ≠ x) (notGone : x ∉ gone) :
    L.rewind (some b) (kept ++ back.filter fun r => !atLeast (L.stamp r) (some c))
      (log.filter fun a => !L.lateEntry (some c) a) x = L.rewind (some b) rows log x := by
  refine rewindRewind le chained.toOrdered ?_
  have absent : L.find (back.filter fun r => !atLeast (L.stamp r) (some c)) x = none :=
    findNone.mpr fun r mem => notBack r (List.mem_filter.mp mem).1
  unfold Layout.find at absent
  have split : L.find (kept ++ back.filter fun r => !atLeast (L.stamp r) (some c)) x = L.find kept x := by
    unfold Layout.find
    rw [List.find?_append, absent, Option.or_none]
  rw [split, done.rewound]
  cases found : L.find rows x with
  | some r => rfl
  | none =>
    have quiet : L.replaced (some c) log x = none := by
      cases first : L.replaced (some c) log x with
      | none => rfl
      | some a => exact absurd ((done.removed x).mpr ⟨found,by simp [first]⟩) notGone
    simp [Layout.rewind, Layout.version, quiet, found]

/- A removed key answers a cut through its surviving entries or through its copy, and
the dates exclude that both do. -/
theorem rewindReturning (respects : ∀ r r', content r = content r' → L.stamp r = L.stamp r') {x : Int}
    {r : ρ} {a : α} (notBack : ∀ r' ∈ back, L.key r' ≠ x) (mem : x ∈ gone)
    (first : L.replaced (some c) log x = some a) (copy : content r = content (L.row a)) :
    L.rewind (some b) (kept ++ back.filter fun r => !atLeast (L.stamp r) (some c))
        (log.filter fun a => !L.lateEntry (some c) a) x = L.rewind (some b) rows log x ∧
      atLeast (L.stamp r) (some b) = true ∨
    L.rewind (some b) (kept ++ back.filter fun r => !atLeast (L.stamp r) (some c))
        (log.filter fun a => !L.lateEntry (some c) a) x = none ∧
      (L.rewind (some b) rows log x).map content =
        ((some r).filter fun r => !atLeast (L.stamp r) (some b)).map content := by
  obtain ⟨dead,_⟩ := (done.removed x).mp mem
  have absent : L.find (kept ++ back.filter fun r => !atLeast (L.stamp r) (some c)) x = none := by
    refine findNone.mpr fun r' listed same => ?_
    rcases List.mem_append.mp listed with old | new
    · have found := done.rewound x
      rw [dead, Option.bind_none] at found
      exact findNone.mp found r' old same
    · exact notBack r' (List.mem_filter.mp new).1 same
  have cut := replacedCut (b := b) (c := c) (x := x) chained.toOrdered
  have stamped := respects _ _ copy
  cases deep : L.replaced (some b) log x with
  | none =>
    rw [replacedNoneDeeper le deep] at first
    cases first
  | some e =>
    rw [deep] at cut
    cases late : atLeast (L.written e) (some c) with
    | false =>
      left
      simp only [Option.filter, late, Bool.not_false, if_true] at cut
      refine ⟨by simp only [Layout.rewind, Layout.version, cut, deep],?_⟩
      have differ : e ≠ a := fun same => by
        subst same
        rw [(replacedSpec first).2.2] at late
        cases late
      obtain ⟨o,m,ho,hm,deepBound⟩ := atLeastTrue.mp (replacedSpec deep).2.2
      cases hm
      obtain ⟨d,hd,bound⟩ := succeedsOf chained deep first differ (fun _ _ => atLeastMono le) o ho
      rw [stamped, hd]
      simp only [Relational.atLeastSome, decide_eq_true_eq]
      omega
    | true =>
      right
      simp only [Option.filter, late, Bool.not_true, Bool.false_eq_true, if_false] at cut
      have same : e = a := Option.some.inj ((replacedDeeper le deep late).symm.trans first)
      subst same
      refine ⟨by simp [Layout.rewind, Layout.version, cut, absent],?_⟩
      simp only [Layout.rewind, Layout.version, deep, Option.filter, stamped]
      split
      · rw [Option.map_some, Option.map_some, copy]
      · rfl

end Rewound

theorem filterMapFilter {xs : List ρ} (p : ρ → Bool) : xs.filterMap (fun r => (some r).filter p) = xs.filter p := by
  rw [← List.filterMap_eq_filter]
  rfl

theorem returningPerm {b : Int} {f f' : Int → Option ρ}
    (each : List.Forall₂ (fun x r => f' x = f x ∧ atLeast (L.stamp r) (some b) = true ∨
      f' x = none ∧ (f x).map content = ((some r).filter fun r => !atLeast (L.stamp r) (some b)).map content)
      gone back) :
    ((gone.filterMap f).map content).Perm
      ((gone.filterMap f').map content ++ (back.filter fun r => !atLeast (L.stamp r) (some b)).map content) := by
  induction each with
  | nil => exact List.Perm.refl _
  | @cons x r gone back head tail ih =>
    rcases head with ⟨same,late⟩ | ⟨silent,copy⟩
    · simp only [List.filterMap_cons, same, List.filter_cons, late, Bool.not_true, Bool.false_eq_true, if_false]
      cases f x with
      | none => exact ih
      | some y => exact List.Perm.cons _ ih
    · simp only [List.filterMap_cons, silent, List.filter_cons]
      cases late : atLeast (L.stamp r) (some b) with
      | true =>
        simp only [Option.filter, late, Bool.not_true, Bool.false_eq_true, if_false, Option.map_none,
          Option.map_eq_none_iff] at copy
        simpa [copy] using ih
      | false =>
        simp only [Option.filter, late, Bool.not_false, if_true, Option.map_some, Option.map_eq_some_iff] at copy
        obtain ⟨y,hy,equal⟩ := copy
        simp only [hy, Bool.not_false, if_true, List.map_cons, equal]
        exact (List.Perm.cons _ ih).trans List.perm_middle.symm

theorem memKnown {x : Int} :
    x ∈ L.known rows log ↔ (∃ r ∈ rows, L.key r = x) ∨ ∃ a ∈ log, L.entity a = x := by
  simp [Layout.known]

theorem rewindUnknown {cut : Option Int} {x : Int} (fresh : x ∉ L.known rows log) :
    L.rewind cut rows log x = none := by
  have quiet : L.replaced cut log x = none := replacedNone.mpr fun a mem same =>
    absurd (memKnown.mpr (Or.inr ⟨a,mem,same⟩)) fresh
  have absent : L.find rows x = none :=
    findNone.mpr fun r mem same => fresh (memKnown.mpr (Or.inl ⟨r,mem,same⟩))
  simp [Layout.rewind, Layout.version, quiet, absent]

section Back
variable {c : Int} (done : L.Reinserts content (some c) rows log kept gone back)
include done

theorem backUnknown {x : Int} (mem : x ∈ L.known rows log) : ∀ r ∈ back, L.key r ≠ x := by
  intro r hr same
  rcases memKnown.mp mem with ⟨r',hr',key⟩ | ⟨a,ha,key⟩
  · exact (done.unused r hr).1 r' hr' (key.trans same.symm)
  · exact (done.unused r hr).2 a ha (key.trans same.symm)

theorem goneKnown {x : Int} (mem : x ∈ gone) : x ∈ L.known rows log := by
  obtain ⟨a,ha⟩ := Option.ne_none_iff_exists'.mp ((done.removed x).mp mem).2
  exact memKnown.mpr (Or.inr ⟨a,(replacedSpec ha).1,(replacedSpec ha).2.1⟩)

theorem knownParts : (L.known rows log).Perm (gone ++ (L.known rows log).filter fun x => decide (x ∉ gone)) := by
  have listed : ((L.known rows log).filter fun x => decide (x ∈ gone)).Perm gone := by
    refine (List.perm_ext_iff_of_nodup ((List.nodup_dedup _).filter _) done.once).mpr fun x => ?_
    simp only [List.mem_filter, decide_eq_true_eq]
    exact ⟨fun h => h.2,fun h => ⟨goneKnown done h,h⟩⟩
  have parts := List.filter_append_perm (fun x => decide (x ∈ gone)) (L.known rows log)
  have negated : (fun x => !decide (x ∈ gone)) = fun x => decide (x ∉ gone) := by
    funext x
    simp
  rw [negated] at parts
  exact parts.symm.trans (listed.append_right _)

theorem keptVersion (keptNodup : (kept.map L.key).Nodup) {r : ρ} (mem : r ∈ kept) :
    (∃ r' ∈ rows, L.key r' = L.key r) ∧ L.version (some c) rows log (L.key r) = some r ∧
      atLeast (L.stamp r) (some c) = false := by
  have found := done.rewound (L.key r)
  rw [findOfMem keptNodup mem] at found
  cases present : L.find rows (L.key r) with
  | none => simp [present] at found
  | some r' =>
    rw [present, Option.bind_some, Layout.rewind] at found
    obtain ⟨version,early⟩ := Option.filter_eq_some_iff.mp found.symm
    exact ⟨⟨r',findMem present⟩,version,by simpa using early⟩

theorem rewindBack {b : Int} {r : ρ} (mem : r ∈ back.filter fun r => !atLeast (L.stamp r) (some c)) :
    L.rewind (some b) (kept ++ back.filter fun r => !atLeast (L.stamp r) (some c))
      (log.filter fun a => !L.lateEntry (some c) a) (L.key r) =
        (some r).filter fun r => !atLeast (L.stamp r) (some b) := by
  have inBack := (List.mem_filter.mp mem).1
  have quiet : L.replaced (some b) (log.filter fun a => !L.lateEntry (some c) a) (L.key r) = none :=
    replacedNone.mpr fun a ha same => absurd same ((done.unused r inBack).2 a (List.mem_filter.mp ha).1)
  have missed : L.find kept (L.key r) = none := by
    rw [done.rewound, findNone.mpr fun r' hr' => (done.unused r inBack).1 r' hr', Option.bind_none]
  have own := findOfMem (done.distinct.sublist (List.filter_sublist.map _)) mem
  have found : L.find (kept ++ back.filter fun r => !atLeast (L.stamp r) (some c)) (L.key r) = some r := by
    unfold Layout.find at missed own ⊢
    rw [List.find?_append, missed, Option.none_or, own]
  simp only [Layout.rewind, Layout.version, quiet, found]

theorem rewindBackAll {b : Int} (le : b ≤ c) :
    ((back.filter fun r => !atLeast (L.stamp r) (some c)).map L.key).filterMap
        (L.rewind (some b) (kept ++ back.filter fun r => !atLeast (L.stamp r) (some c))
          (log.filter fun a => !L.lateEntry (some c) a)) =
      back.filter fun r => !atLeast (L.stamp r) (some b) := by
  rw [List.filterMap_map]
  calc _ = (back.filter fun r => !atLeast (L.stamp r) (some c)).filterMap
          fun r => (some r).filter fun r => !atLeast (L.stamp r) (some b) :=
        List.filterMap_congr fun r mem => rewindBack done mem
    _ = (back.filter fun r => !atLeast (L.stamp r) (some c)).filter fun r => !atLeast (L.stamp r) (some b) :=
        filterMapFilter _
    _ = back.filter fun r => !atLeast (L.stamp r) (some b) := by
        rw [List.filter_filter]
        refine List.filter_congr fun r _ => ?_
        cases late : atLeast (L.stamp r) (some c) with
        | false => simp
        | true => simp [atLeastMono le late]

theorem rewindForeign {b : Int} {x : Int} (unknown : x ∉ L.known rows log)
    (foreign : ∀ r ∈ back.filter fun r => !atLeast (L.stamp r) (some c), L.key r ≠ x) :
    L.rewind (some b) (kept ++ back.filter fun r => !atLeast (L.stamp r) (some c))
      (log.filter fun a => !L.lateEntry (some c) a) x = none := by
  have notBack := findNone.mpr foreign
  have absent : L.find rows x = none := findNone.mpr fun r mem same => unknown (memKnown.mpr (Or.inl ⟨r,mem,same⟩))
  have missed : L.find kept x = none := by rw [done.rewound, absent, Option.bind_none]
  have nowhere : L.find (kept ++ back.filter fun r => !atLeast (L.stamp r) (some c)) x = none := by
    unfold Layout.find at missed notBack ⊢
    rw [List.find?_append, missed, notBack, Option.or_none]
  have quiet : L.replaced (some b) (log.filter fun a => !L.lateEntry (some c) a) x = none :=
    replacedNone.mpr fun a ha same => absurd (memKnown.mpr (Or.inr ⟨a,(List.mem_filter.mp ha).1,same⟩)) unknown
  simp only [Layout.rewind, Layout.version, quiet, nowhere, Option.filter_none]

end Back

theorem gathersReinserted {b c : Int} {ys : List ρ} (le : b ≤ c) (chained : L.Chained rows log)
    (done : L.Reinserts content (some c) rows log kept gone back)
    (respects : ∀ r r', content r = content r' → L.stamp r = L.stamp r')
    (before : Gathers content (L.rewind (some b) rows log) ys) :
    Gathers content (L.rewind (some b) (kept ++ back.filter fun r => !atLeast (L.stamp r) (some c))
      (log.filter fun a => !L.lateEntry (some c) a)) ys := by
  set f := L.rewind (some b) rows log with hf
  set back' := back.filter fun r => !atLeast (L.stamp r) (some c) with hback
  set f' := L.rewind (some b) (kept ++ back') (log.filter fun a => !L.lateEntry (some c) a) with hf'
  set rest := (L.known rows log).filter fun x => decide (x ∉ gone) with hrest
  have staying : ∀ x ∈ rest, f' x = f x := by
    intro x mem
    obtain ⟨known,notGone⟩ := List.mem_filter.mp mem
    exact rewindStaying le chained done (backUnknown done known) (of_decide_eq_true notGone)
  have returning : List.Forall₂ (fun x r => f' x = f x ∧ atLeast (L.stamp r) (some b) = true ∨
      f' x = none ∧ (f x).map content = ((some r).filter fun r => !atLeast (L.stamp r) (some b)).map content)
      gone back := by
    refine (List.forall₂_iff_get.mpr ⟨done.copied.length_eq,fun i hi hi' => ?_⟩)
    obtain ⟨a,first,copy⟩ := (List.forall₂_iff_get.mp done.copied).2 i hi hi'
    have mem := List.get_mem gone ⟨i,hi⟩
    exact rewindReturning le chained done respects (backUnknown done (goneKnown done mem)) mem first copy
  have backRead : (back'.map L.key).filterMap f' = back.filter fun r => !atLeast (L.stamp r) (some b) :=
    rewindBackAll done le
  have restRead : rest.filterMap f' = rest.filterMap f := List.filterMap_congr staying
  have knownNodup : (L.known rows log).Nodup := List.nodup_dedup _
  refine ⟨L.known rows log ++ back'.map L.key,?_,?_,?_⟩
  · refine List.Nodup.append knownNodup (done.distinct.sublist (List.filter_sublist.map _)) ?_
    intro x known listed
    obtain ⟨r,mem,same⟩ := List.mem_map.mp listed
    exact backUnknown done known r (List.mem_filter.mp mem).1 same
  · intro x found
    by_contra fresh
    rw [List.mem_append] at fresh
    exact found (rewindForeign done (fun mem => fresh (Or.inl mem)) fun r mem same =>
      fresh (Or.inr (List.mem_map.mpr ⟨r,mem,same⟩)))
  · have covered : (ys.map content).Perm (((L.known rows log).filterMap f).map content) :=
      gathersOver before knownNodup fun x found => by
        by_contra fresh
        exact found (rewindUnknown fresh)
    have parts : ∀ g : Int → Option ρ, (((L.known rows log).filterMap g).map content).Perm
        ((gone.filterMap g).map content ++ (rest.filterMap g).map content) := by
      intro g
      have split := ((knownParts done).filterMap g).map content
      rwa [List.filterMap_append, List.map_append] at split
    have target : (((L.known rows log ++ back'.map L.key).filterMap f').map content) =
        ((L.known rows log).filterMap f').map content ++
          (back.filter fun r => !atLeast (L.stamp r) (some b)).map content := by
      rw [List.filterMap_append, List.map_append, backRead]
    rw [target]
    refine covered.trans ((parts f).trans ?_)
    refine ((returningPerm returning).append_right _).trans ?_
    have rearranged := ((parts f').append_right
      ((back.filter fun r => !atLeast (L.stamp r) (some b)).map content)).symm
    rw [restRead] at rearranged
    refine List.Perm.trans ?_ rearranged
    rw [List.append_assoc, List.append_assoc]
    exact List.Perm.append_left _ List.perm_append_comm

theorem restoredPerm {c : Int} {ys : List ρ} (chained : L.Chained rows log)
    (done : L.Reinserts content (some c) rows log kept gone back)
    (respects : ∀ r r', content r = content r' → L.stamp r = L.stamp r')
    (keptNodup : (kept.map L.key).Nodup)
    (before : Gathers content (L.rewind (some c) rows log) ys) :
    ((kept ++ back.filter fun r => !atLeast (L.stamp r) (some c)).map content).Perm (ys.map content) := by
  have after := gathersReinserted (Int.le_refl c) chained done respects before
  have nodup : ((kept ++ back.filter fun r => !atLeast (L.stamp r) (some c)).map L.key).Nodup := by
    rw [List.map_append]
    refine keptNodup.append (done.distinct.sublist (List.filter_sublist.map _)) ?_
    intro x old new
    obtain ⟨r,hr,rfl⟩ := List.mem_map.mp old
    obtain ⟨r',hr',same⟩ := List.mem_map.mp new
    obtain ⟨⟨r'',hr'',same'⟩,_⟩ := keptVersion done keptNodup hr
    exact (done.unused r' (List.mem_filter.mp hr').1).1 r'' hr'' (same'.trans same.symm)
  have early : ∀ r ∈ kept ++ back.filter fun r => !atLeast (L.stamp r) (some c),
      atLeast (L.stamp r) (some c) = false := by
    intro r mem
    rcases List.mem_append.mp mem with old | new
    · exact (keptVersion done keptNodup old).2.2
    · simpa using (List.mem_filter.mp new).2
  have calm : ∀ a ∈ log.filter fun a => !L.lateEntry (some c) a, atLeast (L.written a) (some c) = false := by
    intro a mem
    have keep := (List.mem_filter.mp mem).2
    simp only [Layout.lateEntry, Bool.not_or, Bool.and_eq_true, Bool.not_eq_true'] at keep
    exact keep.2
  have settled : L.rewind (some c) (kept ++ back.filter fun r => !atLeast (L.stamp r) (some c))
      (log.filter fun a => !L.lateEntry (some c) a) =
        L.find (kept ++ back.filter fun r => !atLeast (L.stamp r) (some c)) :=
    funext fun x => rewindSettled calm early x
  rw [settled] at after
  exact gathersUnique (gathersFind nodup) after

section Chains
variable {now : Option Int} {rows' : List ρ} {entries : List α}

theorem chainedWrite (chained : L.Chained rows log) (write : L.Write now rows rows' entries)
    (past : ∀ a ∈ log, ∀ o, L.written a = some o → ∃ m, now = some m ∧ o ≤ m)
    (stamped : ∀ r ∈ rows, ∀ d, L.stamp r = some d → ∃ m, now = some m ∧ d ≤ m)
    (restamped : ∀ r ∈ rows', r ∈ rows ∧ L.key r ∉ entries.map L.entity ∨
      ∃ m, now = some m ∧ L.stamp r = some m) : L.Chained rows' (log ++ entries) where
  toOrdered := orderedAppend chained.toOrdered past write.written fun e mem =>
    stamped _ (findMem (write.old e mem)).1
  succeeds := by
    refine List.pairwise_append.mpr ⟨chained.succeeds,?_,?_⟩
    · refine (List.pairwise_map.mp write.once).imp ?_
      intro a a' differ same
      exact absurd same differ
    · intro a ha a' ha' same
      obtain ⟨mem,key⟩ := findMem (write.old a' ha')
      exact chained.current a ha _ mem (key.trans same.symm)
  current := by
    intro a mem r hr same o ho
    rcases restamped r hr with ⟨inRows,missed⟩ | ⟨m,hm,stamp⟩
    · rcases List.mem_append.mp mem with old | new
      · exact chained.current a old r inRows same o ho
      · exact absurd (List.mem_map.mpr ⟨a,new,same.symm⟩) missed
    · refine ⟨m,stamp,?_⟩
      rcases List.mem_append.mp mem with old | new
      · obtain ⟨n,hn,bound⟩ := past a old o ho
        have equal : n = m := Option.some.inj (hn.symm.trans hm)
        omega
      · have equal : o = m := Option.some.inj (ho.symm.trans ((write.written a new).trans hm))
        omega

theorem chainedInsert {r : ρ} (chained : L.Chained rows log) (unused : ∀ a ∈ log, L.entity a ≠ L.key r) :
    L.Chained (rows ++ [r]) log where
  toOrdered := chained.toOrdered
  succeeds := chained.succeeds
  current := by
    intro a ha r' mem same
    rcases List.mem_append.mp mem with old | new
    · exact chained.current a ha r' old same
    · rw [List.mem_singleton.mp new] at same
      exact absurd same.symm (unused a ha)

theorem chainedFilter (chained : L.Chained rows log) (p : α → Bool) : L.Chained rows (log.filter p) where
  toOrdered := orderedFilter chained.toOrdered p
  succeeds := chained.succeeds.sublist List.filter_sublist
  current := fun a mem => chained.current a (List.mem_filter.mp mem).1

theorem succeedsBefore (chained : L.Chained rows log) {a e : α} (ha : a ∈ log) (he : e ∈ log)
    (same : L.entity a = L.entity e) {o o' : Int} (ho : L.written a = some o) (ho' : L.written e = some o')
    (less : o < o') : ∃ d, L.stamp (L.row e) = some d ∧ o ≤ d := by
  obtain ⟨i,hi,rfl⟩ := List.mem_iff_getElem.mp ha
  obtain ⟨j,hj,rfl⟩ := List.mem_iff_getElem.mp he
  rcases Nat.lt_trichotomy i j with before | equal | after
  · exact List.pairwise_iff_getElem.mp chained.succeeds i j hi hj before same o ho
  · subst equal
    have : o = o' := Option.some.inj (ho.symm.trans ho')
    omega
  · have := List.pairwise_iff_getElem.mp chained.ascending j i hj hi after o' o ho' ho
    omega

theorem chainedReinserted {c : Int} (chained : L.Chained rows log) (keptNodup : (kept.map L.key).Nodup)
    (done : L.Reinserts content (some c) rows log kept gone back) :
    L.Chained (kept ++ back.filter fun r => !atLeast (L.stamp r) (some c))
      (log.filter fun a => !L.lateEntry (some c) a) where
  toOrdered := (chainedFilter chained _).toOrdered
  succeeds := (chainedFilter chained _).succeeds
  current := by
    intro a mem r hr same o ho
    obtain ⟨ha,keep⟩ := List.mem_filter.mp mem
    rcases List.mem_append.mp hr with old | new
    · obtain ⟨_,version,_⟩ := keptVersion done keptNodup old
      unfold Layout.version at version
      cases first : L.replaced (some c) log (L.key r) with
      | none =>
        rw [first] at version
        obtain ⟨inRows,_⟩ := findMem version
        exact chained.current a ha r inRows same o ho
      | some e =>
        rw [first] at version
        cases Option.some.inj version
        obtain ⟨he,entity,late⟩ := replacedSpec first
        obtain ⟨o',_,ho',hc,bound⟩ := atLeastTrue.mp late
        cases hc
        simp only [Layout.lateEntry, ho, Bool.not_or, Bool.and_eq_true, Bool.not_eq_true',
          Relational.atLeastSome, decide_eq_false_iff_not] at keep
        exact succeedsBefore chained ha he (same.symm.trans entity.symm) ho ho' (by omega)
    · exact absurd same.symm ((done.unused r (List.mem_filter.mp new).1).2 a ha)

end Chains
end
end FioRelic.Versioning

import FioRelic.Relational.Keeps

/-! Agreement of two procedures on the databases that have a property: one rule for each
construct, and a lookup that finds at most one row, where it does not matter which of the
rows a server takes. Nothing here names a schema. -/
namespace FioRelic.Relational

theorem oneHit {ρ κ : Type} {rows : List ρ} {keyOf : ρ → Option κ} {want : Option κ} {p : ρ → Bool}
    (once : (rows.filterMap keyOf).Nodup) (under : ∀ r, p r = true → ∃ k, keyOf r = some k ∧ want = some k) :
    (rows.filter p).length ≤ 1 := by
  have fewer : ((rows.filter p).filterMap keyOf).Nodup := once.sublist (List.filter_sublist.filterMap _)
  have asked : ∀ r ∈ rows.filter p, ∃ k, keyOf r = some k ∧ want = some k :=
    fun r mem => under r (List.mem_filter.mp mem).2
  cases hits : rows.filter p with
  | nil => exact Nat.zero_le 1
  | cons r rest =>
    cases rest with
    | nil => exact Nat.le_refl 1
    | cons r' rest =>
      rw [hits] at fewer asked
      obtain ⟨k,own,given⟩ := asked r List.mem_cons_self
      obtain ⟨k',own',given'⟩ := asked r' (List.mem_cons_of_mem _ List.mem_cons_self)
      cases given.symm.trans given'
      simp [own, own'] at fewer

variable {τ : Type} {S : Schema τ} {α β : Type}

theorem chosenOne {takes takes' : List Int → Nat} {t : τ} {p : S.Row t → Bool} {s : Database S}
    (one : ((s t).rows.filter p).length ≤ 1) : chosen takes t p s = chosen takes' t p s := by
  unfold chosen
  cases hits : (s t).rows.filter p with
  | nil => rfl
  | cons r rest =>
    cases rest with
    | nil => simp [Nat.mod_one]
    | cons r' rest =>
      rw [hits] at one
      simp at one

def Agree (P : Database S → Prop) (x y : Proc S α) : Prop := ∀ s, P s → x s = y s

namespace Agree
variable {P Q : Database S → Prop}

theorem refl {x : Proc S α} : Agree P x x := fun _ _ => rfl

theorem bind {x y : Proc S α} {f g : α → Proc S β} (first : Agree P x y)
    (keeps : ∀ s v s', P s → x s = .ok (v,s') → Q s') (rest : ∀ a, Agree Q (f a) (g a)) :
    Agree P (x >>= f) (y >>= g) := by
  intro s holds
  change (x s >>= fun result => f result.1 result.2) = (y s >>= fun result => g result.1 result.2)
  rw [← first s holds]
  cases ran : x s with
  | error e => rfl
  | ok result => exact rest result.1 result.2 (keeps s result.1 result.2 holds ran)

theorem read {x y : Proc S α} {f g : α → Proc S β} (first : Agree P x y) (reads : ∀ s, Reads s x)
    (rest : ∀ a, Agree P (f a) (g a)) : Agree P (x >>= f) (y >>= g) :=
  bind first (fun s v s' holds ran => reads s v s' ran ▸ holds) rest

theorem ite {c : Prop} [Decidable c] {x x' y y' : Proc S α} (yes : Agree P x x') (no : Agree P y y') :
    Agree P (if c then x else y) (if c then x' else y') := by
  by_cases h : c
  · rwa [if_pos h, if_pos h]
  · rwa [if_neg h, if_neg h]

theorem guarded {b : Option Int} {k : α} {x y : Proc S α} (later : Agree P x y) :
    Agree P (if below b (some 0) then return k else x) (if below b (some 0) then return k else y) := ite refl later

theorem select {takes takes' : τ → List Int → Nat} {t : τ} {p : S.Row t → Bool}
    (one : ∀ s, P s → ((s t).rows.filter p).length ≤ 1) : Agree P (selectInto takes t p) (selectInto takes' t p) := by
  intro s holds
  have same : chosen (takes t) t p s = chosen (takes' t) t p s := chosenOne (one s holds)
  change Except.ok (chosen (takes t) t p s,s) = Except.ok (chosen (takes' t) t p s,s)
  rw [same]

theorem selected {takes takes' : τ → List Int → Nat} {t : τ} {p : S.Row t → Bool} {f g : Option (S.Row t) → Proc S β}
    (one : ∀ s, P s → ((s t).rows.filter p).length ≤ 1) (rest : ∀ a, Agree P (f a) (g a)) :
    Agree P (selectInto takes t p >>= f) (selectInto takes' t p >>= g) :=
  read (select one) (fun _ => Reads.select) rest

end Agree
end FioRelic.Relational

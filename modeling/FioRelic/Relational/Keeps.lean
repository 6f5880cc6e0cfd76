import FioRelic.Relational.Database

/-! What a procedure keeps: a property of the database it starts on that holds of the one it
returns with. One rule for each construct, so that only the statements that write are left
to a user. Nothing here names a schema. -/
namespace FioRelic.Relational
variable {τ : Type} {S : Schema τ} {α β : Type}

def Keeps (P : Database S → Prop) (s : Database S) (x : Proc S α) : Prop :=
  P s → ∀ v s', x s = .ok (v,s') → P s'

def Reads (s : Database S) (x : Proc S α) : Prop := ∀ v s', x s = .ok (v,s') → s' = s

namespace Reads
variable {s : Database S}

theorem pure {a : α} : Reads s (pure a : Proc S α) := fun _ _ ran => (pureOk.mp ran).2

theorem oneOf {allowed : List String} {text : Option String} : Reads s (oneOf allowed text : Proc S (OneOf allowed)) :=
  fun _ _ ran => (oneOfOk.mp ran).2

theorem select {takes : τ → List Int → Nat} {t : τ} {p : S.Row t → Bool} : Reads s (selectInto takes t p) :=
  fun _ _ ran => (selectIntoOk.mp ran).2

theorem bind {x : Proc S α} {f : α → Proc S β} (first : Reads s x) (rest : ∀ a, Reads s (f a)) : Reads s (x >>= f) := by
  intro v s' ran
  obtain ⟨a,m,ran,later⟩ := bindOk.mp ran
  obtain rfl := first a m ran
  exact rest a v s' later

end Reads

namespace Keeps
variable {P : Database S → Prop} {s : Database S}

theorem reads {x : Proc S α} (read : Reads s x) : Keeps P s x := by
  intro holds v s' ran
  rw [read v s' ran]
  exact holds

theorem pure {a : α} : Keeps P s (pure a : Proc S α) := reads Reads.pure

theorem throw {e : Error} : Keeps P s (throw e : Proc S α) := fun _ _ _ ran => absurd ran throwOk

theorem raise {e : Error} {f : α → Proc S β} : Keeps P s (MonadExcept.throw e >>= f) :=
  fun _ _ _ ran => absurd ran raiseOk

theorem bind {x : Proc S α} {f : α → Proc S β} (first : Keeps P s x)
    (rest : ∀ a m, x s = .ok (a,m) → P m → Keeps P m (f a)) : Keeps P s (x >>= f) := by
  intro holds v s' ran
  obtain ⟨a,m,ran,later⟩ := bindOk.mp ran
  have middle := first holds a m ran
  exact rest a m ran middle middle v s' later

theorem after {x : Proc S α} {f : α → Proc S β} (read : Reads s x) (rest : ∀ a, x s = .ok (a,s) → Keeps P s (f a)) :
    Keeps P s (x >>= f) := by
  refine bind (reads read) fun a m ran _ => ?_
  obtain rfl := read a m ran
  exact rest a ran

theorem ite {c : Prop} [Decidable c] {x y : Proc S α} (yes : c → Keeps P s x) (no : ¬c → Keeps P s y) :
    Keeps P s (if c then x else y) := by
  by_cases h : c
  · rw [if_pos h]
    exact yes h
  · rw [if_neg h]
    exact no h

theorem guarded {b : Option Int} {k : α} {x : Proc S α} (later : Keeps P s x) :
    Keeps P s (if below b (some 0) then return k else x) := ite (fun _ => pure) fun _ => later

theorem select {takes : τ → List Int → Nat} {t : τ} {p : S.Row t → Bool} {f : Option (S.Row t) → Proc S β}
    (rest : Keeps P s (f (chosen (takes t) t p s))) : Keeps P s (selectInto takes t p >>= f) := by
  refine after Reads.select fun found ran => ?_
  obtain ⟨rfl,_⟩ := selectIntoOk.mp ran
  exact rest

end Keeps
end FioRelic.Relational

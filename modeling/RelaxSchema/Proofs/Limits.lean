import Mathlib
import RelaxSchema.Limits

/-!
# Wider limits

What may become of a computation when its limits are wider (`Relaxes`): if it ends with a value, or
fails for another reason than a limit, it does just the same.

* `Relaxes.bind`, `Relaxes.map`, `Relaxes.mapM`, `Relaxes.foldlM`: computations that are composed of
  such steps are of this kind as well;
* `Limits.relaxes_check`: the checks are.

The reason is that a computation that is not refused by a limit has the same steps under wider ones,
up to its end (`relaxes_iff`).
-/

namespace RelaxSchema

open List

/-- Whether a limit is the reason of a failure. -/
def Error.IsRefusal (error : Error) : Prop :=
  ∃ resource amount bound, error = .limitExceeded resource amount bound

/-- A computation under tight limits and one under wide limits. -/
structure Relaxes {α : Type} (tight wide : Except Error α) : Prop where
  /-- If the first one ends with a value, the second one ends with the same. -/
  ok : ∀ value, tight = .ok value → wide = .ok value
  /-- If the first one fails for another reason than a limit, the second one does so as well. -/
  error : ∀ error, tight = .error error → ¬ error.IsRefusal → wide = .error error

section Relaxes

variable {α β γ : Type} {tight wide : Except Error α}

theorem relaxes_iff :
    Relaxes tight wide ↔ tight = wide ∨ ∃ error, tight = .error error ∧ error.IsRefusal := by
  constructor
  · intro h
    cases htight : tight with
    | ok value => exact .inl (h.ok value htight).symm
    | error error =>
      by_cases hrefusal : error.IsRefusal
      · exact .inr ⟨error, rfl, hrefusal⟩
      · exact .inl (h.error error htight hrefusal).symm
  · rintro (rfl | ⟨error, rfl, hrefusal⟩)
    · exact ⟨fun _ hvalue => hvalue, fun _ herror _ => herror⟩
    · refine ⟨fun value hvalue => absurd hvalue (by simp), fun other hother hnot => ?_⟩
      exact absurd (Except.error.inj hother ▸ hrefusal) hnot

theorem Relaxes.refl (computation : Except Error α) : Relaxes computation computation :=
  relaxes_iff.mpr (.inl rfl)

theorem relaxes_refused {resource : Resource} {amount bound : Nat} (wide : Except Error α) :
    Relaxes (.error (.limitExceeded resource amount bound)) wide :=
  relaxes_iff.mpr (.inr ⟨_, rfl, resource, amount, bound, rfl⟩)

/-- Two steps one after the other. -/
theorem Relaxes.bind (h : Relaxes tight wide) {f g : α → Except Error β}
    (hnext : ∀ value, tight = .ok value → Relaxes (f value) (g value)) :
    Relaxes (tight >>= f) (wide >>= g) := by
  rcases relaxes_iff.mp h with rfl | ⟨error, rfl, hrefusal⟩
  · cases htight : tight with
    | ok value => exact hnext value htight
    | error error => exact .refl _
  · exact relaxes_iff.mpr (.inr ⟨error, rfl, hrefusal⟩)

theorem Relaxes.map (h : Relaxes tight wide) (f : α → β) : Relaxes (f <$> tight) (f <$> wide) := by
  rcases relaxes_iff.mp h with rfl | ⟨error, rfl, hrefusal⟩
  · exact .refl _
  · exact relaxes_iff.mpr (.inr ⟨error, rfl, hrefusal⟩)

theorem Relaxes.mapM {f g : γ → Except Error α} {entries : List γ}
    (h : ∀ entry ∈ entries, Relaxes (f entry) (g entry)) :
    Relaxes (entries.mapM f) (entries.mapM g) := by
  induction entries with
  | nil => exact .refl _
  | cons entry rest ih =>
    obtain ⟨hentry, hrest⟩ := forall_mem_cons.mp h
    rw [mapM_cons, mapM_cons]
    exact hentry.bind fun value _ => (ih hrest).bind fun values _ => .refl _

theorem Relaxes.foldlM {f g : α → γ → Except Error α} {entries : List γ}
    (h : ∀ state, ∀ entry ∈ entries, Relaxes (f state entry) (g state entry)) (state : α) :
    Relaxes (entries.foldlM f state) (entries.foldlM g state) := by
  induction entries generalizing state with
  | nil => exact .refl _
  | cons entry rest ih =>
    rw [foldlM_cons, foldlM_cons]
    exact (h state entry mem_cons_self).bind fun next _ =>
      ih (fun state other hother => h state other (mem_cons_of_mem _ hother)) next

end Relaxes

namespace Limits

variable {limits limits' : Limits}

/-- No resource is bounded more tightly by the second limits. -/
def IsWithin (limits limits' : Limits) : Prop :=
  ∀ resource, limits.bound resource ≤ limits'.bound resource

theorem relaxes_check {resource : Resource} (h : limits.bound resource ≤ limits'.bound resource)
    (amount : Nat) : Relaxes (limits.check resource amount) (limits'.check resource amount) := by
  by_cases hle : amount ≤ limits.bound resource
  · rw [(check_eq_ok_iff _ _ _).mpr hle, (check_eq_ok_iff _ _ _).mpr (hle.trans h)]
    exact .refl _
  · rw [check, if_neg hle]
    exact relaxes_refused _

end Limits

end RelaxSchema

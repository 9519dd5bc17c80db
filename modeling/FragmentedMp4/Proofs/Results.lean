import FragmentedMp4.Error
import Mathlib.Data.List.Forall2
import Mathlib.Tactic

/-!
# Laws of results

How a result that is no error came about, and what is left of a result when its error is
forgotten.
-/
namespace FragmentedMp4

variable {ε ε' α β : Type}

theorem bind_eq_ok {result : Except ε α} {next : α → Except ε β} {value : β} :
    result >>= next = .ok value ↔ ∃ middle, result = .ok middle ∧ next middle = .ok value := by
  cases result with
  | error error =>
    constructor
    · intro h
      cases h
    · rintro ⟨middle, h, _⟩
      cases h
  | ok middle =>
    constructor
    · exact fun h => ⟨middle, rfl, h⟩
    · rintro ⟨_, h, hnext⟩
      cases h
      exact hnext

theorem mapError_eq_ok {result : Except ε α} {wrap : ε → ε'} {value : α} :
    result.mapError wrap = .ok value ↔ result = .ok value := by
  cases result <;> simp [mapError_ok, mapError_error]

theorem map_eq_ok {f : α → β} {result : Except ε α} {value : β} :
    result.map f = .ok value ↔ ∃ middle, result = .ok middle ∧ f middle = value := by
  cases result <;> simp [Except.map]

theorem toOption_map (f : α → β) (result : Except ε α) :
    (result.map f).toOption = result.toOption.map f := by
  cases result <;> rfl

theorem toOption_bind (result : Except ε α) (next : α → Except ε β) :
    (result >>= next).toOption = result.toOption.bind fun value => (next value).toOption := by
  cases result <;> rfl

theorem eq_ok_iff_of_toOption {left right : Except ε α} (h : left.toOption = right.toOption)
    (value : α) : left = .ok value ↔ right = .ok value := by
  cases left <;> cases right <;> simp_all [Except.toOption]

/-- Where a result is known in two cases that exclude each other, of which the first has one value
only, the value and the error are known exactly. -/
theorem eq_ok_iff_of_cases {result : Except ε α} {holds : α → Prop} {explains : ε → Prop}
    (hcases : (∃ value, result = .ok value ∧ holds value) ∨
      ∃ error, result = .error error ∧ explains error)
    (hunique : ∀ first second, holds first → holds second → first = second)
    (hexclude : ∀ error, explains error → ∀ value, ¬ holds value) :
    (∀ value, result = .ok value ↔ holds value) ∧
      ∀ error, result = .error error → explains error := by
  rcases hcases with ⟨found, rfl, hfound⟩ | ⟨error, rfl, herror⟩
  · refine ⟨fun value => ⟨?_, ?_⟩, ?_⟩
    · rintro ⟨⟩
      exact hfound
    · exact fun hvalue => congrArg Except.ok (hunique found value hfound hvalue)
    · rintro error ⟨⟩
  · refine ⟨fun value => ⟨?_, ?_⟩, ?_⟩
    · rintro ⟨⟩
    · exact fun hvalue => absurd hvalue (hexclude error herror value)
    · rintro other ⟨⟩
      exact herror

theorem forM_eq_ok {xs : List α} {check : α → Except ε PUnit} (h : xs.forM check = .ok ()) :
    ∀ x ∈ xs, check x = .ok () := by
  induction xs with
  | nil => simp
  | cons x xs ih =>
    obtain ⟨_, hfirst, hrest⟩ := bind_eq_ok.1 h
    intro other hmem
    rcases List.mem_cons.1 hmem with rfl | hmem
    · exact hfirst
    · exact ih hrest other hmem

theorem forM_of_ok {xs : List α} {check : α → Except ε PUnit} (h : ∀ x ∈ xs, check x = .ok ()) :
    xs.forM check = .ok () := by
  induction xs with
  | nil => rfl
  | cons x xs ih =>
    obtain ⟨hfirst, hrest⟩ := List.forall_mem_cons.1 h
    exact bind_eq_ok.2 ⟨(), hfirst, ih hrest⟩

theorem mapM_eq_ok {action : α → Except ε β} {xs : List α} {ys : List β} :
    xs.mapM action = .ok ys ↔ List.Forall₂ (fun x y => action x = .ok y) xs ys := by
  induction xs generalizing ys with
  | nil =>
    rw [List.mapM_nil, List.forall₂_nil_left_iff]
    constructor
    · intro h
      cases h
      rfl
    · rintro rfl
      rfl
  | cons x xs ih =>
    rw [List.mapM_cons, bind_eq_ok, List.forall₂_cons_left_iff]
    constructor
    · rintro ⟨y, hy, hlater⟩
      obtain ⟨rest, hrest, hsame⟩ := bind_eq_ok.1 hlater
      cases hsame
      exact ⟨y, rest, hy, ih.1 hrest, rfl⟩
    · rintro ⟨y, rest, hy, hrest, rfl⟩
      exact ⟨y, hy, bind_eq_ok.2 ⟨rest, ih.2 hrest, rfl⟩⟩

theorem exists_of_forall₂ {related : α → β → Prop} {xs : List α} {ys : List β}
    (h : List.Forall₂ related xs ys) : ∀ x ∈ xs, ∃ y ∈ ys, related x y := by
  induction h with
  | nil =>
    intro x hmem
    cases hmem
  | cons hfirst _ ih =>
    intro x hmem
    rcases List.mem_cons.1 hmem with rfl | hmem
    · exact ⟨_, List.mem_cons_self .., hfirst⟩
    · obtain ⟨y, hy, hrelated⟩ := ih x hmem
      exact ⟨y, List.mem_cons_of_mem _ hy, hrelated⟩

theorem forall₂_comp {γ : Type} {first : α → β → Prop} {second : β → γ → Prop}
    {both : α → γ → Prop} (himp : ∀ x y z, first x y → second y z → both x z) {xs : List α}
    {ys : List β} {zs : List γ} (hfirst : List.Forall₂ first xs ys)
    (hsecond : List.Forall₂ second ys zs) : List.Forall₂ both xs zs := by
  induction hfirst generalizing zs with
  | nil =>
    cases hsecond
    exact .nil
  | cons hx _ ih =>
    obtain _ | ⟨hy, hrest⟩ := hsecond
    exact .cons (himp _ _ _ hx hy) (ih hrest)

theorem orFailure_bind (result : Except Error α) (next : α → Except Error β) :
    orFailure (result >>= next) = orFailure result >>= fun value => orFailure (next value) := by
  cases result <;> rfl

end FragmentedMp4

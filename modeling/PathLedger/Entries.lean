/-!
# Key-ordered entry lists

The ordered association lists behind every table of the library, and behind the fields of an
object value.

* `Entries.get?`, `Entries.put`, `Entries.erase` — look-up, replacing insertion and deletion by one pass.
* `Entries.Ordered` — keys strictly increase, so each key occurs once and equal contents are equal lists.
* `Entries.get?_put`, `Entries.get?_erase` — what each operation does to a look-up, without hypotheses on
  the list for `put`.
* `Entries.ext_of_get?` — two ordered lists with the same look-ups are the same list.
-/

namespace PathLedger

/-- A list of keys with their contents. -/
abbrev Entries (κ α : Type) := List (κ × α)

namespace Entries

variable {κ α β : Type} [Ord κ]

def get? (k : κ) : Entries κ α → Option α
  | [] => none
  | (k', a) :: r => if compare k k' = .eq then some a else get? k r

/-- The list with the content at a key added or replaced, in the place that the order gives it. -/
def put (k : κ) (a : α) : Entries κ α → Entries κ α
  | [] => [(k, a)]
  | (k', a') :: r =>
    match compare k k' with
    | .lt => (k, a) :: (k', a') :: r
    | .eq => (k, a) :: r
    | .gt => (k', a') :: put k a r

def erase (k : κ) (l : Entries κ α) : Entries κ α := l.filter fun e => compare k e.1 != .eq

def has (k : κ) (l : Entries κ α) : Bool := (get? k l).isSome

def keys (l : Entries κ α) : List κ := l.map Prod.fst

/-- The entries one after another, each replacing what stood at its key. -/
def ofList (l : List (κ × α)) : Entries κ α := l.foldl (fun acc e => put e.1 e.2 acc) []

/-- Keys strictly increase along the list. -/
def Ordered (l : Entries κ α) : Prop := l.Pairwise fun a b => compare a.1 b.1 = .lt

instance (l : Entries κ α) : Decidable l.Ordered := inferInstanceAs (Decidable (List.Pairwise _ l))

theorem ordered_nil : Ordered ([] : Entries κ α) := List.Pairwise.nil

theorem Ordered.filter {l : Entries κ α} (h : l.Ordered) (p : κ × α → Bool) :
    Ordered (l.filter p) := List.Pairwise.filter p h

theorem Ordered.erase {l : Entries κ α} (h : l.Ordered) (k : κ) : (erase k l).Ordered := h.filter _

theorem mem_put {k : κ} {a : α} {e : κ × α} {l : Entries κ α} (h : e ∈ put k a l) :
    e = (k, a) ∨ e ∈ l := by
  induction l with
  | nil => simpa [put] using h
  | cons head r ih =>
    obtain ⟨k', a'⟩ := head
    simp only [put] at h
    split at h
    · simpa using h
    · rcases List.mem_cons.1 h with rfl | h
      · exact .inl rfl
      · exact .inr (List.mem_cons_of_mem _ h)
    · rcases List.mem_cons.1 h with rfl | h
      · exact .inr List.mem_cons_self
      · exact (ih h).imp_right (List.mem_cons_of_mem _)

/-- Contents change by a map and keys stay. -/
def mapValues (f : α → β) (l : Entries κ α) : Entries κ β := l.map fun e => (e.1, f e.2)

theorem Ordered.mapValues {l : Entries κ α} (h : l.Ordered) (f : α → β) :
    (mapValues f l).Ordered := List.Pairwise.map _ (fun _ _ h => h) h

section Lookup

variable [Std.LawfulEqOrd κ]

theorem get?_put (k k' : κ) (a : α) (l : Entries κ α) :
    get? k' (put k a l) = if compare k' k = .eq then some a else get? k' l := by
  induction l with
  | nil => simp [put, get?]
  | cons head r ih =>
    obtain ⟨k₀, a₀⟩ := head
    simp only [put]
    split
    · simp [get?]
    · next heq =>
      have : k = k₀ := Std.LawfulEqCmp.eq_of_compare heq
      subst this
      simp only [get?]
      split <;> rfl
    · next hgt =>
      simp only [get?, ih]
      by_cases h₀ : compare k' k₀ = .eq
      · have : k' = k₀ := Std.LawfulEqCmp.eq_of_compare h₀
        subst this
        have hne : compare k' k ≠ .eq := by
          intro h
          have : k' = k := Std.LawfulEqCmp.eq_of_compare h
          subst this
          simp at hgt
        simp [hne]
      · simp [h₀]

theorem get?_erase (k k' : κ) (l : Entries κ α) :
    get? k' (erase k l) = if compare k' k = .eq then none else get? k' l := by
  induction l with
  | nil => simp [erase, get?]
  | cons head r ih =>
    obtain ⟨k₀, a₀⟩ := head
    by_cases h₀ : compare k k₀ = .eq
    · have : k = k₀ := Std.LawfulEqCmp.eq_of_compare h₀
      subst this
      have : erase k ((k, a₀) :: r) = erase k r := by simp [erase]
      rw [this, ih]
      simp only [get?]
      split <;> rfl
    · have : erase k ((k₀, a₀) :: r) = (k₀, a₀) :: erase k r := by simp [erase, h₀]
      rw [this]
      simp only [get?, ih]
      by_cases h₁ : compare k' k₀ = .eq
      · have : k' = k₀ := Std.LawfulEqCmp.eq_of_compare h₁
        subst this
        have hne : compare k' k ≠ .eq := fun h => by
          have : k' = k := Std.LawfulEqCmp.eq_of_compare h
          subst this
          simp at h₀
        simp [hne]
      · simp [h₁]

theorem get?_eq_some_iff_mem {l : Entries κ α} (h : l.Ordered) {k : κ} {a : α} :
    get? k l = some a ↔ (k, a) ∈ l := by
  induction l with
  | nil => simp [get?]
  | cons head r ih =>
    obtain ⟨k₀, a₀⟩ := head
    have hr := List.Pairwise.of_cons h
    have hfirst : ∀ e ∈ r, compare k₀ e.1 = .lt := fun e he => List.rel_of_pairwise_cons h he
    simp only [get?, List.mem_cons, Prod.mk.injEq]
    split
    · next heq =>
      have : k = k₀ := Std.LawfulEqCmp.eq_of_compare heq
      subst this
      constructor
      · intro h
        exact .inl ⟨rfl, (Option.some.inj h).symm⟩
      · rintro (⟨-, rfl⟩ | h)
        · rfl
        · have := hfirst _ h
          simp at this
    · next hne =>
      rw [ih hr]
      constructor
      · exact .inr
      · rintro (⟨rfl, -⟩ | h)
        · simp at hne
        · exact h

end Lookup

variable [Std.TransOrd κ]

theorem Ordered.put {l : Entries κ α} (h : l.Ordered) (k : κ) (a : α) : (put k a l).Ordered := by
  induction l with
  | nil => exact List.pairwise_singleton _ _
  | cons head r ih =>
    obtain ⟨k', a'⟩ := head
    have hr := List.Pairwise.of_cons h
    have hfirst : ∀ e ∈ r, compare k' e.1 = .lt := fun e he => List.rel_of_pairwise_cons h he
    simp only [Entries.put]
    split
    · next hlt =>
      refine List.Pairwise.cons (fun e he => ?_) h
      rcases List.mem_cons.1 he with rfl | he
      · exact hlt
      · exact Std.TransCmp.lt_trans hlt (hfirst e he)
    · next heq =>
      exact List.Pairwise.cons
        (fun e he => Std.TransCmp.lt_of_eq_of_lt heq (hfirst e he)) hr
    · next hgt =>
      refine List.Pairwise.cons (fun e he => ?_) (ih hr)
      rcases mem_put he with rfl | he
      · exact Std.OrientedCmp.lt_of_gt hgt
      · exact hfirst e he

/-- Ordered lists are determined by their look-ups. -/
theorem ext_of_get? [Std.LawfulEqOrd κ] {l₁ l₂ : Entries κ α} (h₁ : l₁.Ordered) (h₂ : l₂.Ordered)
    (h : ∀ k, get? k l₁ = get? k l₂) : l₁ = l₂ := by
  induction l₁ generalizing l₂ with
  | nil =>
    cases l₂ with
    | nil => rfl
    | cons head r => simpa [get?] using h head.1
  | cons head₁ r₁ ih =>
    cases l₂ with
    | nil => simpa [get?] using h head₁.1
    | cons head₂ r₂ =>
      have mem : ∀ e, e ∈ head₁ :: r₁ ↔ e ∈ head₂ :: r₂ := fun e => by
        rw [← get?_eq_some_iff_mem h₁, ← get?_eq_some_iff_mem h₂, h]
      have f₁ : ∀ e ∈ r₁, compare head₁.1 e.1 = .lt := fun e he => List.rel_of_pairwise_cons h₁ he
      have f₂ : ∀ e ∈ r₂, compare head₂.1 e.1 = .lt := fun e he => List.rel_of_pairwise_cons h₂ he
      have same : head₁ = head₂ := by
        rcases List.mem_cons.1 ((mem head₁).1 List.mem_cons_self) with h | h
        · exact h
        · rcases List.mem_cons.1 ((mem head₂).2 List.mem_cons_self) with h' | h'
          · exact h'.symm
          · have a := f₂ _ h
            have b := f₁ _ h'
            have := Std.TransCmp.lt_trans a b
            simp at this
      subst same
      refine congrArg _ (ih (List.Pairwise.of_cons h₁) (List.Pairwise.of_cons h₂) fun k => ?_)
      have hk := h k
      simp only [get?] at hk
      by_cases he : compare k head₁.1 = .eq
      · have : k = head₁.1 := Std.LawfulEqCmp.eq_of_compare he
        subst this
        have absent : ∀ {r : Entries κ α}, (∀ e ∈ r, compare head₁.1 e.1 = .lt) →
            get? head₁.1 r = none := by
          intro r hr
          induction r with
          | nil => rfl
          | cons e r ih' =>
            have := hr e List.mem_cons_self
            simp only [get?, this]
            exact ih' fun e he => hr e (List.mem_cons_of_mem _ he)
        rw [absent f₁, absent f₂]
      · simpa [he] using hk

end Entries

end PathLedger

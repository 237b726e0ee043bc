import PathLedger.Derivation.Graph
import PathLedger.Proofs.Entries

/-!
# Subscriptions mirror references

A graph keeps its formulas by target and its subscriptions by the key that is read. The operations of a graph
keep the two in step.

* `Derivation.Graph.Mirrors` — a target subscribes to a key exactly when its formula refers to it.
* `Derivation.Graph.Mirrors.register`, `Derivation.Graph.Mirrors.unregister`,
  `Derivation.Graph.Mirrors.clearUnder`, `Derivation.Graph.Mirrors.touch` — **the operations keep it so**.
* `Derivation.Graph.get?_register`, … — which formula is registered where, after an operation.
-/

namespace PathLedger.Derivation

/-- The keys that a derivation refers to. -/
def refKeys (d : Derivation) : List String := d.refs.map Reference.path

namespace Graph

variable {g : Graph} {target key t : String}

/-! ## One subscription -/

theorem mem_subscribe {subs : Dict String (List String)} {k : String} :
    t ∈ ((subscribe target subs k).get? key).getD [] ↔
      t ∈ (subs.get? key).getD [] ∨ key = k ∧ t = target := by
  unfold subscribe
  dsimp only
  split
  · rename_i hthere
    have hthere : target ∈ (subs.get? k).getD [] := by simpa using hthere
    constructor
    · exact .inl
    · rintro (h | ⟨rfl, rfl⟩)
      · exact h
      · exact hthere
  · by_cases hkey : key = k
    · subst hkey
      simp [Dict.get?_insert_self]
    · simp [Dict.get?_insert_of_ne _ hkey, hkey]

theorem mem_foldl_subscribe {keys : List String} {subs : Dict String (List String)} :
    t ∈ ((keys.foldl (subscribe target) subs).get? key).getD [] ↔
      t ∈ (subs.get? key).getD [] ∨ key ∈ keys ∧ t = target := by
  induction keys generalizing subs with
  | nil => simp
  | cons k rest ih =>
    rw [List.foldl_cons, ih, mem_subscribe, List.mem_cons, or_and_right, or_assoc]

theorem mem_unsubscribe {subs : Dict String (List String)} {k : String} :
    t ∈ ((unsubscribe target subs k).get? key).getD [] ↔
      t ∈ (subs.get? key).getD [] ∧ ¬(key = k ∧ t = target) := by
  unfold unsubscribe
  cases hall : subs.get? k with
  | none =>
    dsimp only
    constructor
    · intro h
      refine ⟨h, ?_⟩
      rintro ⟨rfl, -⟩
      rw [hall] at h
      cases h
    · exact And.left
  | some all =>
    dsimp only
    by_cases hkey : key = k
    · subst hkey
      rw [hall]
      split
      · rename_i hgone
        have hgone : ∀ a ∈ all, a = target := by simpa using hgone
        rw [Dict.get?_erase, if_pos Std.ReflCmp.compare_self]
        simpa using hgone t
      · rw [Dict.get?_insert_self]
        simp
    · have hother : compare key k ≠ .eq := mt Std.LawfulEqCmp.eq_of_compare hkey
      split
      · simp [Dict.get?_erase, hother, hkey]
      · simp [Dict.get?_insert_of_ne _ hkey, hkey]

theorem mem_foldl_unsubscribe {keys : List String} {subs : Dict String (List String)} :
    t ∈ ((keys.foldl (unsubscribe target) subs).get? key).getD [] ↔
      t ∈ (subs.get? key).getD [] ∧ ¬(key ∈ keys ∧ t = target) := by
  induction keys generalizing subs with
  | nil => simp
  | cons k rest ih =>
    rw [List.foldl_cons, ih, mem_unsubscribe, List.mem_cons, or_and_right, not_or, and_assoc]

/-! ## What is registered after an operation -/

theorem get?_empty (t : String) : empty.get? t = none := rfl

theorem get?_unregister (g : Graph) (target t : String) :
    (g.unregister target).get? t = if t = target then none else g.get? t := by
  unfold unregister
  cases hold : g.get? target with
  | none =>
    dsimp only
    split
    · rename_i heq
      rw [heq, hold]
    · rfl
  | some old =>
    dsimp only
    unfold get?
    rw [Dict.get?_erase]
    by_cases heq : t = target
    · rw [if_pos heq, if_pos (heq ▸ Std.ReflCmp.compare_self)]
    · rw [if_neg heq, if_neg (mt Std.LawfulEqCmp.eq_of_compare heq)]

theorem get?_foldl_unregister (g : Graph) (targets : List String) (t : String) :
    (targets.foldl unregister g).get? t = if t ∈ targets then none else g.get? t := by
  induction targets generalizing g with
  | nil => rfl
  | cons target rest ih =>
    rw [List.foldl_cons, ih, get?_unregister]
    by_cases heq : t = target
    · simp [heq]
    · simp [heq]

theorem get?_clearUnder (g : Graph) (p : Path) (t : String) :
    (g.clearUnder p).get? t = if Path.atOrUnder t p.key then none else g.get? t := by
  unfold clearUnder
  rw [get?_foldl_unregister]
  by_cases hunder : Path.atOrUnder t p.key
  · by_cases htarget : t ∈ g.targets
    · rw [if_pos (List.mem_filter.mpr ⟨htarget, hunder⟩), if_pos hunder]
    · have hnone : g.get? t = none :=
        Option.not_isSome_iff_eq_none.mp (mt Dict.mem_keys_iff.mpr htarget)
      rw [hnone, ite_self, ite_self]
  · have hkept : t ∉ g.targets.filter fun k => Path.atOrUnder k p.key := fun h => hunder (List.mem_filter.mp h).2
    rw [if_neg hkept, if_neg hunder]

theorem get?_register (g : Graph) (p : Path) (d : Derivation) (t : String) :
    (g.register p d).get? t = if t = p.key then some d else g.get? t := by
  have hrest := get?_unregister g p.key t
  unfold register get?
  dsimp only
  by_cases heq : t = p.key
  · rw [heq, Dict.get?_insert_self, if_pos rfl]
  · rw [Dict.get?_insert_of_ne _ heq, if_neg heq]
    rwa [if_neg heq] at hrest

theorem get?_touch (g : Graph) (target : String) (time : UInt64) (t : String) :
    (g.touch target time).get? t =
      if t = target then (g.get? t).map fun d => { d with lastComputedAt := time } else g.get? t := by
  unfold touch
  cases hold : g.get? target with
  | none =>
    dsimp only
    split
    · rename_i heq
      rw [heq, hold]
      rfl
    · rfl
  | some old =>
    dsimp only
    unfold get?
    by_cases heq : t = target
    · subst heq
      unfold get? at hold
      rw [Dict.get?_insert_self, if_pos rfl, hold]
      rfl
    · rw [Dict.get?_insert_of_ne _ heq, if_neg heq]

/-! ## Mirrors -/

/-- A target subscribes to a key exactly when its formula refers to it. -/
def Mirrors (g : Graph) : Prop :=
  ∀ key t, t ∈ g.subscribersOf key ↔ ∃ d, g.get? t = some d ∧ key ∈ d.refKeys

namespace Mirrors

theorem empty : Mirrors empty := by
  intro key t
  constructor
  · intro h
    cases h
  · rintro ⟨d, hd, -⟩
    cases hd

theorem unregister (h : Mirrors g) (target : String) : Mirrors (g.unregister target) := by
  intro key t
  rw [get?_unregister]
  cases hold : g.get? target with
  | none =>
    have hsame : g.unregister target = g := by
      unfold Graph.unregister
      rw [hold]
    rw [hsame, h key t]
    by_cases heq : t = target
    · subst heq
      simp [hold]
    · simp [heq]
  | some old =>
    have hsubs : t ∈ (g.unregister target).subscribersOf key ↔
        t ∈ g.subscribersOf key ∧ ¬(key ∈ old.refKeys ∧ t = target) := by
      unfold Graph.unregister
      rw [hold]
      exact mem_foldl_unsubscribe
    rw [hsubs, h key t]
    by_cases heq : t = target
    · subst heq
      simp [hold]
    · simp [heq]

theorem register (h : Mirrors g) (p : Path) (d : Derivation) : Mirrors (g.register p d) := by
  intro key t
  have hsubs : t ∈ (g.register p d).subscribersOf key ↔
      t ∈ (g.unregister p.key).subscribersOf key ∨ key ∈ d.refKeys ∧ t = p.key := mem_foldl_subscribe
  rw [hsubs, h.unregister p.key key t, get?_unregister, get?_register]
  by_cases heq : t = p.key
  · simp [heq]
  · simp [heq]

theorem touch (h : Mirrors g) (target : String) (time : UInt64) : Mirrors (g.touch target time) := by
  intro key t
  have hsubs : (g.touch target time).subscribersOf key = g.subscribersOf key := by
    unfold subscribersOf
    rw [subscribers_touch]
  rw [hsubs, h key t, get?_touch]
  split
  · cases g.get? t <;> simp [refKeys]
  · rfl

theorem clearUnder (h : Mirrors g) (p : Path) : Mirrors (g.clearUnder p) := by
  unfold Graph.clearUnder
  exact List.foldlRecOn _ _ h fun g hg target _ => hg.unregister target

end Mirrors

/-- What subscribes is registered. -/
theorem Mirrors.registered (h : Mirrors g) (ht : t ∈ g.subscribersOf key) : (g.get? t).isSome := by
  obtain ⟨d, hd, -⟩ := (h key t).mp ht
  rw [hd]
  rfl

end Graph

end PathLedger.Derivation

import PathLedger.Index.Walk
import PathLedger.Proofs.Path.Keys

/-!
# Where walks through pointers end

A pointer exactly at a path leads to its target. Any other path is led on by the deepest pointer above it, to the target
with the rest of the path behind. The paths that are led on from a path form one row, which may end, come round again, or
grow without bound when a pointer leads under itself. A walk goes along this row for as many steps as its budget has.

* `Index.Redirects`, `Index.Settled` — one step, and the paths where none is left to take.
* `Index.redirect?_eq_some_iff`, `Index.redirect?_eq_none_iff` — **what is computed is that step**.
* `Index.Leads` — as many steps as told.
* `Index.walk_of_leads` — a walk finds the end of a row that ends within its budget.
* `Index.walk_settles` — **where a walk ends, for every index and budget**.
* `Index.walk_left_lt`, `Index.walk_redirected` — what a walk takes from its budget.
-/

namespace PathLedger

namespace Index

variable {index : Index} {p q r : Path}

/-! ## One step -/

theorem pointerAt?_eq_none : index.pointerAt? p = none ↔ ∀ target, index.entry p ≠ some (.pointer target) := by
  rw [pointerAt?, Option.map_eq_none_iff]
  constructor
  · intro h target hentry
    rw [hentry] at h
    cases h
  · intro h
    cases hentry : index.entry p with
    | none => rfl
    | some v =>
      cases v with
      | pointer target => exact absurd hentry (h target)
      | _ => rfl

theorem pointerAt?_eq_some : index.pointerAt? p = some q ↔
    ∃ target, index.entry p = some (.pointer target) ∧ Path.canonical target = q := by
  rw [pointerAt?, Option.map_eq_some_iff]
  constructor
  · rintro ⟨target, hpointer, hq⟩
    obtain ⟨v, hentry, hv⟩ := Option.bind_eq_some_iff.mp hpointer
    cases v with
    | pointer text =>
      obtain rfl := Option.some.inj hv
      exact ⟨text, hentry, hq⟩
    | _ => cases hv
  · rintro ⟨target, hentry, hq⟩
    exact ⟨target, by rw [hentry]; rfl, hq⟩

/-- The pointer that counts at a path leads on to another: the one exactly there, or else the deepest above, which keeps
the rest of the path. -/
inductive Redirects (index : Index) (p : Path) : Path → Prop where
  | here {target : String} (h : index.entry p = some (.pointer target)) : Redirects index p (Path.canonical target)
  | above {n : Nat} {target : String} (hn : n < p.length) (h : index.entry (p.take n) = some (.pointer target))
    (hdeepest : ∀ m, n < m → m ≤ p.length → ∀ other, index.entry (p.take m) ≠ some (.pointer other)) :
    Redirects index p ((Path.canonical target).join (p.drop n))

/-- No pointer stands at a path or at any of its ancestors, the root among them. -/
def Settled (index : Index) (p : Path) : Prop :=
  ∀ n ≤ p.length, ∀ target, index.entry (p.take n) ≠ some (.pointer target)

/-- The last number below a bound for which something is found. -/
theorem findSome?_reverse_range_eq_some {α : Type} {f : Nat → Option α} {bound : Nat} {a : α} :
    (List.range bound).reverse.findSome? f = some a ↔
      ∃ n < bound, f n = some a ∧ ∀ m, n < m → m < bound → f m = none := by
  induction bound with
  | zero => simp
  | succ bound ih =>
    rw [List.range_succ, List.reverse_append, List.reverse_singleton, List.singleton_append, List.findSome?_cons]
    constructor
    · intro h
      split at h
      · rename_i found hfound
        obtain rfl := Option.some.inj h
        exact ⟨bound, Nat.lt_succ_self _, hfound, fun m hm hlt => by omega⟩
      · rename_i hlast
        obtain ⟨n, hn, hfound, hrest⟩ := ih.mp h
        refine ⟨n, Nat.lt_succ_of_lt hn, hfound, fun m hm hlt => ?_⟩
        rcases Nat.lt_succ_iff_lt_or_eq.mp hlt with hlt | rfl
        · exact hrest m hm hlt
        · exact hlast
    · rintro ⟨n, hn, hfound, hrest⟩
      rcases Nat.lt_succ_iff_lt_or_eq.mp hn with hlt | rfl
      · rw [hrest bound hlt (Nat.lt_succ_self _)]
        exact ih.mpr ⟨n, hlt, hfound, fun m hm hbound => hrest m hm (Nat.lt_succ_of_lt hbound)⟩
      · rw [hfound]

/-- **The deepest pointer along a path redirects it**, when it does not stand at the path itself. -/
theorem redirect?_of_deepest {target : Path} {n : Nat} (hn : n < p.length)
    (hpoints : index.pointerAt? (p.take n) = some target)
    (hdeepest : ∀ m, n < m → m ≤ p.length → index.pointerAt? (p.take m) = none) :
    index.redirect? p = some (target.join (p.drop n)) := by
  have hself : index.pointerAt? p = none := by
    have := hdeepest p.length hn (Nat.le_refl _)
    rwa [Path.take_length] at this
  rw [redirect?, hself]
  refine findSome?_reverse_range_eq_some.mpr ⟨n, hn, by rw [hpoints]; rfl, fun m hm hlt => ?_⟩
  rw [hdeepest m hm (Nat.le_of_lt hlt), Option.map_none]

/-- **The step that is computed is the one that the pointers ask for.** -/
theorem redirect?_eq_some_iff : index.redirect? p = some q ↔ index.Redirects p q := by
  constructor
  · intro h
    unfold redirect? at h
    split at h
    · rename_i target htarget
      obtain rfl := Option.some.inj h
      obtain ⟨text, hentry, rfl⟩ := pointerAt?_eq_some.mp htarget
      exact .here hentry
    · rename_i hself
      obtain ⟨n, hn, hfound, hrest⟩ := findSome?_reverse_range_eq_some.mp h
      obtain ⟨target, htarget, rfl⟩ := Option.map_eq_some_iff.mp hfound
      obtain ⟨text, hentry, rfl⟩ := pointerAt?_eq_some.mp htarget
      refine .above hn hentry fun m hm hle => pointerAt?_eq_none.mp ?_
      rcases Nat.lt_or_eq_of_le hle with hlt | rfl
      · exact Option.map_eq_none_iff.mp (hrest m hm hlt)
      · rwa [Path.take_length]
  · intro h
    cases h with
    | here hentry => rw [redirect?, pointerAt?_eq_some.mpr ⟨_, hentry, rfl⟩]
    | above hn hentry hdeepest =>
      exact redirect?_of_deepest hn (pointerAt?_eq_some.mpr ⟨_, hentry, rfl⟩) fun m hm hle =>
        pointerAt?_eq_none.mpr (hdeepest m hm hle)

/-- **No step is computed exactly where no pointer counts.** -/
theorem redirect?_eq_none_iff : index.redirect? p = none ↔ index.Settled p := by
  constructor
  · intro h n hn
    apply pointerAt?_eq_none.mp
    unfold redirect? at h
    split at h
    · cases h
    · rename_i hself
      rcases Nat.lt_or_eq_of_le hn with hlt | rfl
      · have hnone := List.findSome?_eq_none_iff.mp h n (List.mem_reverse.mpr (List.mem_range.mpr hlt))
        exact Option.map_eq_none_iff.mp hnone
      · rwa [Path.take_length]
  · intro h
    have hnone (n : Nat) (hn : n ≤ p.length) : index.pointerAt? (p.take n) = none := pointerAt?_eq_none.mpr (h n hn)
    have hself := hnone p.length (Nat.le_refl _)
    rw [Path.take_length] at hself
    rw [redirect?, hself]
    simp only [List.findSome?_eq_none_iff, List.mem_reverse, List.mem_range]
    intro n hn
    rw [hnone n (Nat.le_of_lt hn), Option.map_none]

theorem redirect?_eq_none (h : ∀ n ≤ p.length, index.pointerAt? (p.take n) = none) : index.redirect? p = none :=
  redirect?_eq_none_iff.mpr fun n hn => pointerAt?_eq_none.mp (h n hn)

/-- Where nothing redirects, the path itself holds no pointer. -/
theorem entry_ne_pointer (h : index.redirect? p = none) (target : String) : index.entry p ≠ some (.pointer target) := by
  have := redirect?_eq_none_iff.mp h p.length (Nat.le_refl _) target
  rwa [Path.take_length] at this

/-! ## Rows of steps -/

/-- As many steps as told, one after another. -/
inductive Leads (index : Index) : Nat → Path → Path → Prop where
  | stay (p : Path) : Leads index 0 p p
  | hop {n : Nat} {p q r : Path} (h : index.Redirects p q) (rest : Leads index n q r) : Leads index (n + 1) p r

theorem walk_of_redirect?_eq_none (h : index.redirect? p = none) (budget : Nat) :
    index.walk budget p = ⟨p, index.entry p, false, budget⟩ := by
  cases budget with
  | zero => rw [walk, h]
  | succ budget => rw [walk, h]

theorem walk_hop (h : index.redirect? p = some q) (budget : Nat) : index.walk (budget + 1) p = index.walk budget q := by
  rw [walk, h]

/-- **A walk finds the end of a row of steps** that its budget is enough for. -/
theorem walk_of_leads {n budget : Nat} (h : index.Leads n p q) (hq : index.Settled q) (hn : n ≤ budget) :
    index.walk budget p = ⟨q, index.entry q, false, budget - n⟩ := by
  induction h generalizing budget with
  | stay p => exact walk_of_redirect?_eq_none (redirect?_eq_none_iff.mpr hq) budget
  | @hop n p q r hstep _ ih =>
    obtain ⟨budget, rfl⟩ : ∃ b, budget = b + 1 := ⟨budget - 1, by omega⟩
    rw [walk_hop (redirect?_eq_some_iff.mpr hstep), ih hq (Nat.le_of_succ_le_succ hn), Nat.succ_sub_succ]

/-- A walk takes a unit of its budget for each step, and stops where no pointer counts or nothing is left. -/
theorem walk_cases (index : Index) (budget : Nat) (p : Path) :
    ∃ n ≤ budget, index.Leads n p (index.walk budget p).path ∧ (index.walk budget p).left = budget - n ∧
      ((index.walk budget p).exhausted = false ∧ index.Settled (index.walk budget p).path ∧
          (index.walk budget p).raw = index.entry (index.walk budget p).path ∨
        (index.walk budget p).exhausted = true ∧ ¬index.Settled (index.walk budget p).path ∧
          (index.walk budget p).raw = none ∧ n = budget) := by
  induction budget generalizing p with
  | zero =>
    refine ⟨0, Nat.le_refl _, ?_⟩
    cases h : index.redirect? p with
    | none =>
      rw [walk_of_redirect?_eq_none h]
      exact ⟨.stay p, rfl, .inl ⟨rfl, redirect?_eq_none_iff.mp h, rfl⟩⟩
    | some q =>
      rw [walk, h]
      refine ⟨.stay p, rfl, .inr ⟨rfl, fun hsettled => ?_, rfl, rfl⟩⟩
      rw [redirect?_eq_none_iff.mpr hsettled] at h
      cases h
  | succ budget ih =>
    cases h : index.redirect? p with
    | none =>
      rw [walk_of_redirect?_eq_none h]
      exact ⟨0, Nat.zero_le _, .stay p, rfl, .inl ⟨rfl, redirect?_eq_none_iff.mp h, rfl⟩⟩
    | some q =>
      obtain ⟨n, hn, hleads, hleft, hends⟩ := ih q
      rw [walk_hop h]
      refine ⟨n + 1, Nat.succ_le_succ hn, .hop (redirect?_eq_some_iff.mp h) hleads, by omega, ?_⟩
      exact hends.imp_right fun ⟨hout, hmore, hraw, hall⟩ => ⟨hout, hmore, hraw, congrArg Nat.succ hall⟩

theorem exhausted_eq_false_iff {budget : Nat} :
    (index.walk budget p).exhausted = false ↔ ∃ n ≤ budget, ∃ q, index.Leads n p q ∧ index.Settled q := by
  constructor
  · intro h
    obtain ⟨n, hn, hleads, -, ⟨-, hsettled, -⟩ | ⟨hout, -⟩⟩ := index.walk_cases budget p
    · exact ⟨n, hn, _, hleads, hsettled⟩
    · rw [hout] at h
      cases h
  · rintro ⟨n, hn, q, hleads, hsettled⟩
    rw [walk_of_leads hleads hsettled hn]

/-- **A walk that ends goes the same way with a larger budget**, and more of it is left. -/
theorem walk_add {budget : Nat} (h : (index.walk budget p).exhausted = false) (more : Nat) :
    index.walk (budget + more) p =
      { index.walk budget p with left := (index.walk budget p).left + more } := by
  obtain ⟨n, hn, q, hleads, hsettled⟩ := exhausted_eq_false_iff.mp h
  rw [walk_of_leads hleads hsettled hn, walk_of_leads hleads hsettled (Nat.le_add_right_of_le hn),
    Nat.sub_add_comm hn]

/-- A walk that leads away takes from the budget. -/
theorem walk_left_lt {budget : Nat} (h : (index.walk budget p).path ≠ p) : (index.walk budget p).left < budget := by
  obtain ⟨n, hn, hleads, hleft, -⟩ := index.walk_cases budget p
  generalize index.walk budget p = w at *
  cases hleads with
  | stay => exact absurd rfl h
  | hop => omega

/-- A walk from a redirected path takes a hop, when it ends, and ends elsewhere. -/
theorem walk_redirected {budget : Nat} (hq : index.redirect? p = some q)
    (h : (index.walk budget p).exhausted = false) :
    (index.walk budget p).path ≠ p ∧ ∃ n, budget = n + 1 ∧ index.walk budget p = index.walk n q := by
  refine ⟨fun heq => ?_, ?_⟩
  · obtain ⟨-, -, -, -, ⟨-, hsettled, -⟩ | ⟨hout, -⟩⟩ := index.walk_cases budget p
    · rw [heq, ← redirect?_eq_none_iff, hq] at hsettled
      cases hsettled
    · rw [hout] at h
      cases h
  · cases budget with
    | zero =>
      rw [walk, hq] at h
      cases h
    | succ n => exact ⟨n, rfl, walk_hop hq n⟩

/-- **Where a walk ends.** Every walk stops after no more steps than its budget has. It does not run out exactly when that
many steps, or fewer, lead to a path where no pointer counts; then it ends there, with the entry there and what is left of
the budget. Otherwise it finds nothing and has nothing left. So a larger budget never changes where a walk ends. -/
theorem walk_settles (index : Index) (budget : Nat) (p : Path) :
    (∃ n ≤ budget, index.Leads n p (index.walk budget p).path ∧ (index.walk budget p).left = budget - n) ∧
    ((index.walk budget p).exhausted = false ↔ ∃ n ≤ budget, ∃ q, index.Leads n p q ∧ index.Settled q) ∧
    (∀ n ≤ budget, ∀ q, index.Leads n p q → index.Settled q →
      index.walk budget p = ⟨q, index.entry q, false, budget - n⟩) ∧
    ((index.walk budget p).exhausted = true → (index.walk budget p).raw = none ∧ (index.walk budget p).left = 0) ∧
    ∀ more, (index.walk budget p).exhausted = false → index.walk (budget + more) p =
      { index.walk budget p with left := (index.walk budget p).left + more } := by
  obtain ⟨n, hn, hleads, hleft, hends⟩ := index.walk_cases budget p
  refine ⟨⟨n, hn, hleads, hleft⟩, exhausted_eq_false_iff, fun n hn q hleads hq => walk_of_leads hleads hq hn, ?_,
    fun more h => walk_add h more⟩
  intro hout
  rcases hends with ⟨hstays, -⟩ | ⟨-, -, hraw, hall⟩
  · rw [hout] at hstays
    cases hstays
  · exact ⟨hraw, by rw [hleft, hall, Nat.sub_self]⟩

/-- A pointer to a path under another pointer. -/
def stepped : Index := Dict.ofList [("a", .pointer "b.c"), ("b", .pointer "d"), ("d.c.x", .bool true)]

/-- Two steps lead from a path to an entry, so a budget of two ends there and one of one runs out. -/
theorem walk_settles_stepped :
    stepped.Leads 2 ⟨["a", "x"]⟩ ⟨["d", "c", "x"]⟩ ∧ stepped.Settled ⟨["d", "c", "x"]⟩ ∧
      stepped.walk 2 ⟨["a", "x"]⟩ = ⟨⟨["d", "c", "x"]⟩, some (.bool true), false, 0⟩ ∧
      (stepped.walk 1 ⟨["a", "x"]⟩).exhausted = true ∧ (stepped.walk 1 ⟨["a", "x"]⟩).raw = none := by
  have hsettled : stepped.Settled ⟨["d", "c", "x"]⟩ := redirect?_eq_none_iff.mp (by decide +kernel)
  have hfirst : stepped.redirect? ⟨["a", "x"]⟩ = some ⟨["b", "c", "x"]⟩ := by decide +kernel
  have hsecond : stepped.redirect? ⟨["b", "c", "x"]⟩ = some ⟨["d", "c", "x"]⟩ := by decide +kernel
  have hleads : stepped.Leads 2 ⟨["a", "x"]⟩ ⟨["d", "c", "x"]⟩ :=
    .hop (redirect?_eq_some_iff.mp hfirst) (.hop (redirect?_eq_some_iff.mp hsecond) (.stay _))
  have hout : (stepped.walk 1 ⟨["a", "x"]⟩).exhausted = true := by decide +kernel
  refine ⟨hleads, hsettled, ?_, hout, ((walk_settles stepped 1 _).2.2.2.1 hout).1⟩
  exact (walk_settles stepped 2 _).2.2.1 2 (Nat.le_refl _) _ hleads hsettled

/-- A pointer under itself leads to ever longer paths. -/
example : Index.walk (Dict.ofList [("s", .pointer "s.t")]) 3 ⟨["s"]⟩ = ⟨⟨["s", "t", "t", "t"]⟩, none, true, 0⟩ := by
  decide +kernel

end Index

end PathLedger

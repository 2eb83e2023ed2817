import Mathlib.Data.List.Forall2

/-!
# Computations that may fail

Compiling and decoding stop at the first error. A computation that is put together from steps
succeeds exactly if every step does, each on the result of the one before.
-/

namespace SpinGlass

variable {α β ε : Type}

/-- Two steps succeed if the first does and the second does on its result. -/
theorem bind_eq_ok {x : Except ε α} {f : α → Except ε β} {b : β} :
    x >>= f = .ok b ↔ ∃ a, x = .ok a ∧ f a = .ok b := by
  cases x with
  | error e =>
    constructor
    · intro h
      cases h
    · rintro ⟨a, ha, _⟩
      cases ha
  | ok a =>
    constructor
    · intro h
      exact ⟨a, rfl, h⟩
    · rintro ⟨_, ha, h⟩
      cases ha
      exact h

/-- Two steps fail if the first does, or if it succeeds and the second fails on its result. -/
theorem bind_eq_error {x : Except ε α} {f : α → Except ε β} {e : ε} :
    x >>= f = .error e ↔ x = .error e ∨ ∃ a, x = .ok a ∧ f a = .error e := by
  cases x with
  | error e' => simp [Bind.bind, Except.bind]
  | ok a => simp [Bind.bind, Except.bind]

/-- Two computations agree if their first steps do, and their second steps on what the first
returns. -/
theorem bind_congr_ok {x y : Except ε α} {f g : α → Except ε β} (hxy : x = y)
    (hfg : ∀ a, x = .ok a → f a = g a) : x >>= f = y >>= g := by
  subst hxy
  cases x with
  | error e => rfl
  | ok a => exact hfg a rfl

/-- Naming an error does not change when there is none. -/
theorem mapError_eq_ok {ε' : Type} {x : Except ε α} {f : ε → ε'} {a : α} :
    x.mapError f = .ok a ↔ x = .ok a := by
  cases x <;> simp [Except.mapError]

theorem toOption_eq_some_iff {x : Except ε α} {a : α} : x.toOption = some a ↔ x = .ok a := by
  cases x with
  | error e => simp [Except.toOption]
  | ok b => simp [Except.toOption]

theorem exists_eq_ok_of_isSome {x : Except ε α} (h : x.toOption.isSome = true) :
    ∃ a, x = .ok a := by
  cases x with
  | error e => cases h
  | ok a => exact ⟨a, rfl⟩

/-- A fold over a list succeeds if its first step does and the fold over the rest does. -/
theorem foldlM_cons_eq_ok {step : β → α → Except ε β} {x : α} {rest : List α} {start b : β} :
    (x :: rest).foldlM step start = .ok b ↔
      ∃ next, step start x = .ok next ∧ rest.foldlM step next = .ok b := by
  rw [List.foldlM_cons, bind_eq_ok]

/-- A fold succeeds if every step does, whatever it starts from. -/
theorem exists_foldlM_eq_ok {step : β → α → Except ε β} {xs : List α} {start : β}
    (h : ∀ x ∈ xs, ∀ b, ∃ next, step b x = .ok next) : ∃ b, xs.foldlM step start = .ok b := by
  induction xs generalizing start with
  | nil => exact ⟨start, rfl⟩
  | cons x rest ih =>
    obtain ⟨next, hfirst⟩ := h x List.mem_cons_self start
    obtain ⟨b, hrest⟩ := ih fun y hy => h y (List.mem_cons_of_mem _ hy)
    exact ⟨b, foldlM_cons_eq_ok.mpr ⟨next, hfirst, hrest⟩⟩

/-- What every step that succeeds keeps is kept by the fold. -/
theorem holds_of_foldlM {motive : β → Prop} {step : β → α → Except ε β} {xs : List α} {start b : β}
    (hstart : motive start)
    (hstep : ∀ c, motive c → ∀ x ∈ xs, ∀ next, step c x = .ok next → motive next)
    (h : xs.foldlM step start = .ok b) : motive b := by
  induction xs generalizing start with
  | nil =>
    cases h
    exact hstart
  | cons x rest ih =>
    obtain ⟨next, hfirst, h⟩ := foldlM_cons_eq_ok.mp h
    exact ih (hstep start hstart x List.mem_cons_self next hfirst)
      (fun c hc y hy => hstep c hc y (List.mem_cons_of_mem _ hy)) h

/-- A fold that fails does so at one of its steps, after the steps before it have succeeded. -/
theorem exists_of_foldlM_eq_error {step : β → α → Except ε β} {xs : List α} {start : β} {e : ε}
    (h : xs.foldlM step start = .error e) : ∃ done x rest b,
      xs = done ++ x :: rest ∧ done.foldlM step start = .ok b ∧ step b x = .error e := by
  induction xs generalizing start with
  | nil => cases h
  | cons x rest ih =>
    rw [List.foldlM_cons] at h
    rcases bind_eq_error.mp h with hx | ⟨next, hx, h⟩
    · exact ⟨[], x, rest, start, rfl, rfl, hx⟩
    · obtain ⟨done, y, tail, b, rfl, hdone, hy⟩ := ih h
      exact ⟨x :: done, y, tail, b, rfl, foldlM_cons_eq_ok.mpr ⟨next, hx, hdone⟩, hy⟩

/-- Checks that fail do so at one of the elements. -/
theorem exists_of_forM_eq_error {check : α → Except ε Unit} {xs : List α} {e : ε}
    (h : xs.forM check = .error e) : ∃ x ∈ xs, check x = .error e := by
  induction xs with
  | nil => cases h
  | cons x rest ih =>
    have hcons : (x :: rest).forM check = check x >>= fun _ => rest.forM check := rfl
    rw [hcons] at h
    rcases bind_eq_error.mp h with hx | ⟨_, _, h⟩
    · exact ⟨x, List.mem_cons_self, hx⟩
    · obtain ⟨y, hy, he⟩ := ih h
      exact ⟨y, List.mem_cons_of_mem _ hy, he⟩

/-- Checking every element succeeds if every check does. -/
theorem forM_eq_ok {check : α → Except ε Unit} {xs : List α} :
    xs.forM check = .ok () ↔ ∀ x ∈ xs, check x = .ok () := by
  induction xs with
  | nil => simp [Pure.pure, Except.pure]
  | cons x rest ih =>
    have hcons : (x :: rest).forM check = check x >>= fun _ => rest.forM check := rfl
    rw [hcons, bind_eq_ok, List.forall_mem_cons, ← ih]
    exact ⟨fun ⟨(), hfirst, hrest⟩ => ⟨hfirst, hrest⟩, fun ⟨hfirst, hrest⟩ => ⟨(), hfirst, hrest⟩⟩

/-- A traversal that succeeds does so at every element. -/
theorem forall₂_of_mapM_eq_ok {f : α → Except ε β} {xs : List α} {ys : List β}
    (h : xs.mapM f = .ok ys) : List.Forall₂ (fun x y => f x = .ok y) xs ys := by
  induction xs generalizing ys with
  | nil =>
    cases h
    exact .nil
  | cons x rest ih =>
    rw [List.mapM_cons] at h
    obtain ⟨y, hfirst, h⟩ := bind_eq_ok.mp h
    obtain ⟨zs, hrest, h⟩ := bind_eq_ok.mp h
    cases h
    exact .cons hfirst (ih hrest)

/-- A traversal that succeeds at every element lists the results. -/
theorem mapM_eq_ok_map {f : α → Except ε β} {g : α → β} {xs : List α}
    (h : ∀ x ∈ xs, f x = .ok (g x)) : xs.mapM f = .ok (xs.map g) := by
  induction xs with
  | nil => rfl
  | cons x rest ih =>
    obtain ⟨hfirst, hrest⟩ := List.forall_mem_cons.mp h
    rw [List.mapM_cons, hfirst, ih hrest]
    rfl

/-- Every result of a traversal is the result at an element. -/
theorem exists_of_mapM_eq_ok {f : α → Except ε β} {xs : List α} {ys : List β}
    (h : xs.mapM f = .ok ys) {y : β} (hy : y ∈ ys) : ∃ x ∈ xs, f x = .ok y := by
  have hall := forall₂_of_mapM_eq_ok h
  obtain ⟨i, hi, rfl⟩ := List.getElem_of_mem hy
  have hlt : i < xs.length := hall.length_eq ▸ hi
  exact ⟨xs[i], List.getElem_mem hlt, hall.get hlt hi⟩

/-- A traversal that fails does so at one of the elements. -/
theorem exists_of_mapM_eq_error {f : α → Except ε β} {xs : List α} {e : ε}
    (h : xs.mapM f = .error e) : ∃ x ∈ xs, f x = .error e := by
  induction xs with
  | nil => cases h
  | cons x rest ih =>
    rw [List.mapM_cons] at h
    rcases bind_eq_error.mp h with hx | ⟨y, _, h⟩
    · exact ⟨x, List.mem_cons_self, hx⟩
    · rcases bind_eq_error.mp h with hrest | ⟨ys, _, h⟩
      · obtain ⟨z, hz, he⟩ := ih hrest
        exact ⟨z, List.mem_cons_of_mem _ hz, he⟩
      · cases h

/-- Traversals agree if the same happens at their elements. -/
theorem mapM_congr {γ : Type} {f : α → Except ε β} {g : γ → Except ε β} {xs : List α}
    {ys : List γ} (h : List.Forall₂ (fun x y => f x = g y) xs ys) : xs.mapM f = ys.mapM g := by
  induction h with
  | nil => rfl
  | cons hfirst _ ih => rw [List.mapM_cons, List.mapM_cons, hfirst, ih]

/-- The result at every element is a result of a traversal. -/
theorem exists_mem_of_mapM_eq_ok {f : α → Except ε β} {xs : List α} {ys : List β}
    (h : xs.mapM f = .ok ys) {x : α} (hx : x ∈ xs) : ∃ y ∈ ys, f x = .ok y := by
  have hall := forall₂_of_mapM_eq_ok h
  obtain ⟨i, hi, rfl⟩ := List.getElem_of_mem hx
  have hlt : i < ys.length := hall.length_eq ▸ hi
  exact ⟨ys[i], List.getElem_mem hlt, hall.get hi hlt⟩

/-- A traversal succeeds if it does so at every element. -/
theorem exists_mapM_eq_ok {f : α → Except ε β} {xs : List α}
    (h : ∀ x ∈ xs, ∃ y, f x = .ok y) : ∃ ys, xs.mapM f = .ok ys := by
  induction xs with
  | nil => exact ⟨[], rfl⟩
  | cons x rest ih =>
    obtain ⟨y, hy⟩ := h x List.mem_cons_self
    obtain ⟨ys, hys⟩ := ih fun x hx => h x (List.mem_cons_of_mem _ hx)
    refine ⟨y :: ys, ?_⟩
    rw [List.mapM_cons, hy, hys]
    rfl

end SpinGlass

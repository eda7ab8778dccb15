import Mathlib.Data.List.Forall2

namespace Modularity

theorem bind_ok_iff {α β ε : Type} {x : Except ε α} {f : α → Except ε β} {y : β} :
    x >>= f = .ok y ↔ ∃ a, x = .ok a ∧ f a = .ok y := by
  constructor
  · intro h
    cases x with
    | error e => nomatch h
    | ok a => exact ⟨a, rfl, h⟩
  · intro hx
    obtain ⟨a, rfl, h⟩ := hx
    exact h

theorem bind_error_iff {α β ε : Type} {x : Except ε α} {f : α → Except ε β} {e : ε} :
    x >>= f = .error e ↔ x = .error e ∨ ∃ a, x = .ok a ∧ f a = .error e := by
  cases x with
  | error e' =>
    have hleft : (Except.error e' >>= f) = .error e' := rfl
    simp [hleft]
  | ok a =>
    have hright : (Except.ok a >>= f) = f a := rfl
    simp [hright]

theorem map_ok_iff {α β ε : Type} {x : Except ε α} {f : α → β} {y : β} :
    x.map f = .ok y ↔ ∃ a, x = .ok a ∧ f a = y := by
  cases x with
  | error e => simp [Except.map]
  | ok a => simp [Except.map]

theorem ok_of_toOption {α ε : Type} {x : Except ε α} {a : α} (h : x.toOption = some a) :
    x = .ok a := by
  cases x with
  | error e => nomatch h
  | ok b => exact congrArg _ (Option.some.inj h)

theorem map_error_iff {α β ε : Type} {x : Except ε α} {f : α → β} {e : ε} :
    x.map f = .error e ↔ x = .error e := by
  cases x with
  | error e' => simp [Except.map]
  | ok a => simp [Except.map]

theorem exists_ok_congr {α β γ ε : Type} {x : Except ε α} {y : Except ε β} {f : α → γ} {g : β → γ}
    (h : x.map f = y.map g) : (∃ a, x = .ok a) ↔ ∃ b, y = .ok b := by
  cases x with
  | error e =>
    obtain rfl := map_error_iff.1 h.symm
    exact iff_of_false nofun nofun
  | ok a =>
    obtain ⟨b, rfl, -⟩ := map_ok_iff.1 h.symm
    exact iff_of_true ⟨a, rfl⟩ ⟨b, rfl⟩

theorem mapM_congr {α β ε : Type} {f g : α → Except ε β} {xs : List α} (h : ∀ x ∈ xs, f x = g x) :
    xs.mapM f = xs.mapM g := by
  induction xs with
  | nil => rfl
  | cons x xs ih =>
    rw [List.mapM_cons, List.mapM_cons, h x (List.mem_cons_self ..),
      ih fun y hy ↦ h y (List.mem_cons_of_mem _ hy)]

theorem mapM_map_ok {α β γ ε : Type} (f : α → Except ε β) (r : β → γ) (xs : List α) :
    xs.mapM (fun x ↦ (f x).map r) = (xs.mapM f).map (List.map r) := by
  induction xs with
  | nil => rfl
  | cons x xs ih =>
    rw [List.mapM_cons, List.mapM_cons, ih]
    cases f x with
    | error err => rfl
    | ok y =>
      cases xs.mapM f with
      | error err => rfl
      | ok ys => rfl

theorem mapM_ok_iff {α β ε : Type} {f : α → Except ε β} {xs : List α} {ys : List β} :
    xs.mapM f = .ok ys ↔ List.Forall₂ (fun x y ↦ f x = .ok y) xs ys := by
  induction xs generalizing ys with
  | nil =>
    simp only [List.mapM_nil, pure, Except.pure, Except.ok.injEq, List.forall₂_nil_left_iff]
    exact eq_comm
  | cons x xs ih =>
    simp only [List.mapM_cons, bind_ok_iff, List.forall₂_cons_left_iff, ih, pure, Except.pure,
      Except.ok.injEq]
    constructor
    · intro hx
      obtain ⟨z, hz, zs, hzs, rfl⟩ := hx
      exact ⟨z, zs, hz, hzs, rfl⟩
    · intro hy
      obtain ⟨z, zs, hz, hzs, rfl⟩ := hy
      exact ⟨z, hz, zs, hzs, rfl⟩

theorem mem_of_mapM_ok {α β ε : Type} {f : α → Except ε β} {xs : List α} {ys : List β}
    (h : xs.mapM f = .ok ys) {y : β} : y ∈ ys ↔ ∃ x ∈ xs, f x = .ok y := by
  induction mapM_ok_iff.1 h with
  | nil => simp
  | @cons x z xs zs hxz hrest ih =>
    rw [List.mem_cons, List.exists_mem_cons_iff, ih (mapM_ok_iff.2 hrest), hxz, Except.ok.injEq, eq_comm]

theorem exists_of_mapM_ok {α β ε : Type} {f : α → Except ε β} {xs : List α} {ys : List β}
    (h : xs.mapM f = .ok ys) {x : α} (hx : x ∈ xs) : ∃ y ∈ ys, f x = .ok y := by
  induction mapM_ok_iff.1 h with
  | nil => nomatch hx
  | @cons z y zs ys hzy hrest ih =>
    rcases List.mem_cons.1 hx with rfl | hx
    · exact ⟨y, List.mem_cons_self .., hzy⟩
    · obtain ⟨w, hw, hxw⟩ := ih (mapM_ok_iff.2 hrest) hx
      exact ⟨w, List.mem_cons_of_mem _ hw, hxw⟩

theorem map_of_mapM_ok {α β γ ε : Type} {f : α → Except ε β} {g : α → γ} {g' : β → γ} {xs : List α}
    {ys : List β} (hg : ∀ {x y}, f x = .ok y → g' y = g x) (h : xs.mapM f = .ok ys) :
    ys.map g' = xs.map g := by
  induction mapM_ok_iff.1 h with
  | nil => rfl
  | cons hxy hrest ih => rw [List.map_cons, List.map_cons, hg hxy, ih (mapM_ok_iff.2 hrest)]

theorem exists_of_mapM_error {α β ε : Type} {f : α → Except ε β} {xs : List α} {e : ε}
    (h : xs.mapM f = .error e) : ∃ x ∈ xs, f x = .error e := by
  induction xs with
  | nil => nomatch h
  | cons x xs ih =>
    rw [List.mapM_cons, bind_error_iff] at h
    rcases h with h | ⟨y, -, h⟩
    · exact ⟨x, List.mem_cons_self .., h⟩
    · rcases bind_error_iff.1 h with h | ⟨ys, -, h⟩
      · obtain ⟨z, hz, hfz⟩ := ih h
        exact ⟨z, List.mem_cons_of_mem _ hz, hfz⟩
      · nomatch h

end Modularity

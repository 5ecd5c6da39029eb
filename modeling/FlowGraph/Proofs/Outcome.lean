import FlowGraph.Fault
import Mathlib.Data.List.Forall2

/-! # Outcomes of guarded steps

An operation either gives a result or fails with a fault. `Yields` speaks of both at once: it says
what holds of the result and which faults may stand in its place. One statement about an operation
thereby serves three purposes. If no fault is allowed, it says that the operation gives a result; if
only `endless` is allowed, that nothing but a circle of links can keep it from giving one; if every
fault is allowed, it speaks of those runs that return. -/

namespace FlowGraph

/-- `x` fails for an allowed reason, or gives something that satisfies `post`. -/
def Yields {α : Type} (allowed : Fault → Prop) (x : Except Fault α) (post : α → Prop) : Prop :=
  match x with
  | .ok a => post a
  | .error f => allowed f

section

variable {α β : Type} {allowed : Fault → Prop} {x : Except Fault α} {post : α → Prop}

/-! ## Reading off -/

theorem Yields.of_eq_ok (yields : Yields allowed x post) {a : α} (returned : x = .ok a) : post a := by
  subst returned
  exact yields

theorem Yields.of_eq_error (yields : Yields allowed x post) {f : Fault} (failed : x = .error f) :
    allowed f := by
  subst failed
  exact yields

theorem Yields.exists_ok (yields : Yields (fun _ => False) x post) : ∃ a, x = .ok a ∧ post a := by
  cases x with
  | ok a => exact ⟨a, rfl, yields⟩
  | error f => exact yields.elim

instance (x : Except Fault α) : Decidable (∃ a, x = .ok a) :=
  match x with
  | .ok a => .isTrue ⟨a, rfl⟩
  | .error _ => .isFalse (by simp)

instance (x : Except Fault α) (p : α → Prop) [DecidablePred p] : Decidable (∃ a, x = .ok a ∧ p a) :=
  match x with
  | .ok a => decidable_of_iff (p a) (by simp)
  | .error _ => .isFalse (by simp)

/-! ## Putting together -/

theorem yields_ok {a : α} (holds : post a) : Yields allowed (.ok a) post := holds

theorem yields_pure {a : α} (holds : post a) : Yields allowed (pure a) post := holds

theorem yields_of_eq_ok {a : α} (returned : x = .ok a) (holds : post a) : Yields allowed x post := by
  subst returned
  exact holds

/-- Where every fault is allowed, the statement is about what is returned, if anything is. -/
theorem yields_of_forall (returns : ∀ a, x = .ok a → post a) : Yields (fun _ => True) x post := by
  cases x with
  | ok a => exact returns a rfl
  | error f => exact trivial

/-- A condition that is known to hold need not be allowed to fail. -/
theorem require_yields_or {c : Prop} [Decidable c] {f : Fault} (may : c ∨ allowed f) :
    Yields allowed (require c f) fun _ => c := by
  by_cases holds : c
  · exact yields_of_eq_ok (require_eq_ok.2 holds) holds
  · rw [require, if_neg holds]
    exact may.resolve_left holds

theorem require_yields {c : Prop} [Decidable c] {f : Fault} :
    Yields (fun _ => True) (require c f) fun _ => c :=
  require_yields_or (.inr trivial)

theorem Yields.map {f : α → β} {post' : β → Prop} (yields : Yields allowed x post)
    (weaken : ∀ a, post a → post' (f a)) : Yields allowed (f <$> x) post' := by
  cases x with
  | ok a => exact weaken a yields
  | error e => exact yields

theorem Yields.allow {allowed' : Fault → Prop} (yields : Yields allowed x post)
    (more : ∀ f, allowed f → allowed' f) : Yields allowed' x post := by
  cases x with
  | ok a => exact yields
  | error f => exact more f yields

theorem Yields.mono {post' : α → Prop} (yields : Yields allowed x post)
    (weaken : ∀ a, post a → post' a) : Yields allowed x post' := by
  cases x with
  | ok a => exact weaken a yields
  | error f => exact yields

/-- A step that allows no fault may stand where some are allowed. -/
theorem Yields.bind {f : α → Except Fault β} {post' : β → Prop} (first : Yields allowed x post)
    (second : ∀ a, post a → Yields allowed (f a) post') : Yields allowed (x >>= f) post' := by
  cases x with
  | ok a => exact second a first
  | error f => exact first

@[simp] theorem ok_bind (a : α) (f : α → Except Fault β) : (Except.ok a >>= f) = f a := rfl

@[simp] theorem pure_bind_fault (a : α) (f : α → Except Fault β) :
    ((pure a : Except Fault α) >>= f) = f a := rfl

theorem require_bind {c : Prop} [Decidable c] {f : Fault} (holds : c)
    (next : Unit → Except Fault β) : (require c f >>= next) = next () := by
  rw [require_eq_ok.2 holds]
  rfl

theorem Yields.and_of_eq_ok {post' : α → Prop} (yields : Yields allowed x post)
    (also : ∀ a, x = .ok a → post' a) : Yields allowed x fun a => post a ∧ post' a := by
  cases x with
  | ok a => exact ⟨yields, also a rfl⟩
  | error f => exact yields

/-- What holds at first and is kept by each step holds after all of them. The invariant may speak of
the elements that have been dealt with. -/
theorem Yields.foldlM {state : Type} (inv : List α → state → Prop)
    {step : state → α → Except Fault state} {xs : List α} {s : state} (start : inv [] s)
    (keeps : ∀ done a rest s, xs = done ++ a :: rest → inv done s →
      Yields allowed (step s a) (inv (done ++ [a]))) : Yields allowed (xs.foldlM step s) (inv xs) := by
  -- for every way of splitting the list into what is done and what is still to come
  have from_here (rest : List α) : ∀ (done : List α) (s : state), xs = done ++ rest → inv done s →
      Yields allowed (rest.foldlM step s) (inv xs) := by
    induction rest with
    | nil =>
      intro done s split holds
      rw [List.append_nil] at split
      exact yields_pure (split ▸ holds)
    | cons a rest ih =>
      intro done s split holds
      rw [List.foldlM_cons]
      exact (keeps done a rest s split holds).bind fun s' holds' =>
        ih (done ++ [a]) s' (by simp [split]) holds'
  exact from_here xs [] s rfl start

theorem Yields.mapM {f : α → Except Fault β} {xs : List α}
    (each : ∀ x ∈ xs, Yields allowed (f x) fun _ => True) :
    Yields allowed (xs.mapM f) fun _ => True := by
  induction xs with
  | nil => exact yields_pure trivial
  | cons x xs ih =>
    rw [List.mapM_cons]
    refine (each x (List.mem_cons_self ..)).bind fun _ _ => ?_
    exact (ih fun y member => each y (List.mem_cons_of_mem _ member)).bind fun _ _ =>
      yields_pure trivial

theorem mapM_eq_ok {f : α → Except Fault β} {xs : List α} {ys : List β} :
    xs.mapM f = .ok ys ↔ List.Forall₂ (fun x y => f x = .ok y) xs ys := by
  induction xs generalizing ys with
  | nil =>
    rw [List.mapM_nil]
    constructor
    · rintro ⟨⟩
      exact .nil
    · rintro ⟨⟩
      rfl
  | cons x xs ih =>
    rw [List.mapM_cons, bind_eq_ok]
    simp only [bind_eq_ok, ih]
    constructor
    · rintro ⟨y, hy, ys', hys, ⟨⟩⟩
      exact .cons hy hys
    · intro all
      cases all with
      | cons head tail => exact ⟨_, head, _, tail, rfl⟩

theorem map_eq_ok {f : α → β} {b : β} : f <$> x = .ok b ↔ ∃ a, x = .ok a ∧ f a = b := by
  cases x <;> simp [Functor.map, Except.map]

/-- A sequence of two steps fails with what the first one fails with, or else the second one. -/
theorem bind_eq_error {f : α → Except Fault β} {e : Fault} :
    x >>= f = .error e ↔ x = .error e ∨ ∃ a, x = .ok a ∧ f a = .error e := by
  cases x <;> simp [bind, Except.bind]

/-- Steps taken one by one fail with what the first one that does not succeed fails with. -/
theorem mapM_eq_error {f : α → Except Fault β} {xs : List α} {e : Fault} :
    xs.mapM f = .error e ↔
      ∃ l x r, xs = l ++ x :: r ∧ (∀ y ∈ l, ∃ b, f y = .ok b) ∧ f x = .error e := by
  induction xs with
  | nil =>
    rw [List.mapM_nil]
    constructor
    · rintro ⟨⟩
    · rintro ⟨l, x, r, split, -⟩
      simp at split
  | cons x xs ih =>
    have rest (b : β) : (xs.mapM f >>= fun bs => pure (b :: bs)) = .error e ↔ xs.mapM f = .error e := by
      rw [bind_eq_error]
      constructor
      · rintro (failed | ⟨_, -, ⟨⟩⟩)
        exact failed
      · exact .inl
    simp only [List.mapM_cons, bind_eq_error, rest, ih]
    constructor
    · rintro (failed | ⟨b, here, l, y, r, rfl, fine, failed⟩)
      · exact ⟨[], x, xs, rfl, by simp, failed⟩
      · refine ⟨x :: l, y, r, rfl, ?_, failed⟩
        rw [List.forall_mem_cons]
        exact ⟨⟨b, here⟩, fine⟩
    · rintro ⟨l, y, r, split, fine, failed⟩
      cases l with
      | nil =>
        cases split
        exact .inl failed
      | cons z l =>
        cases split
        obtain ⟨⟨b, here⟩, fine⟩ := List.forall_mem_cons.1 fine
        exact .inr ⟨b, here, l, y, r, rfl, fine, failed⟩

theorem forall₂_and_eq {p : α → Prop} {f : α → β} {xs : List α} {ys : List β} :
    List.Forall₂ (fun x y => p x ∧ y = f x) xs ys ↔ (∀ x ∈ xs, p x) ∧ ys = xs.map f := by
  induction xs generalizing ys with
  | nil => simp [List.forall₂_nil_left_iff]
  | cons x xs ih =>
    rw [List.forall₂_cons_left_iff]
    simp only [ih, List.forall_mem_cons, List.map_cons]
    constructor
    · rintro ⟨_, _, ⟨here, rfl⟩, ⟨rest, rfl⟩, rfl⟩
      exact ⟨⟨here, rest⟩, rfl⟩
    · rintro ⟨⟨here, rest⟩, rfl⟩
      exact ⟨_, _, ⟨here, rfl⟩, ⟨rest, rfl⟩, rfl⟩

theorem exists_of_forall₂ {R : α → β → Prop} {xs : List α} {ys : List β}
    (all : List.Forall₂ R xs ys) {y : β} (member : y ∈ ys) : ∃ x ∈ xs, R x y := by
  induction all with
  | nil => cases member
  | cons here _ ih =>
    cases member with
    | head => exact ⟨_, List.mem_cons_self .., here⟩
    | tail _ member =>
      obtain ⟨x, inside, there⟩ := ih member
      exact ⟨x, List.mem_cons_of_mem _ inside, there⟩

end

end FlowGraph

import MappedQuery.Sql.Plan
import MappedQuery.Sql.Session

/-!
# Taking computations apart

A computation that may fail and has not failed went through each of its steps, and one that has
failed did so at one of them. The lemmas here turn a computation into the steps it took, for plain
failure and for the steps of planning.
-/
namespace MappedQuery

section Except

variable {ε α β : Type}

theorem bind_eq_ok {x : Except ε α} {f : α → Except ε β} {b : β} :
    x >>= f = .ok b ↔ ∃ a, x = .ok a ∧ f a = .ok b := by
  cases x with
  | error e => simp [bind, Except.bind]
  | ok a => simp [bind, Except.bind]

theorem pure_eq_ok {a b : α} : (pure a : Except ε α) = .ok b ↔ a = b := by
  simp [pure, Except.pure]

theorem map_eq_ok {x : Except ε α} {f : α → β} {b : β} :
    f <$> x = .ok b ↔ ∃ a, x = .ok a ∧ f a = b := by
  cases x with
  | error e => simp [Functor.map, Except.map]
  | ok a => simp [Functor.map, Except.map]

theorem bind_eq_error {x : Except ε α} {f : α → Except ε β} {e : ε} :
    x >>= f = .error e ↔ x = .error e ∨ ∃ a, x = .ok a ∧ f a = .error e := by
  cases x with
  | error e => simp [bind, Except.bind]
  | ok a => simp [bind, Except.bind]

theorem map_eq_error {x : Except ε α} {f : α → β} {e : ε} :
    f <$> x = .error e ↔ x = .error e := by
  cases x with
  | error e => simp [Functor.map, Except.map]
  | ok a => simp [Functor.map, Except.map]

theorem ok_bind (a : α) (f : α → Except ε β) : Except.ok a >>= f = f a := rfl

theorem map_ok (a : α) (f : α → β) : f <$> (Except.ok a : Except ε α) = .ok (f a) := rfl

/-- What steps that all went right give comes from their items. -/
theorem exists_of_mem_mapM {f : α → Except ε β} {l : List α} {bs : List β}
    (h : l.mapM f = .ok bs) {b : β} (hb : b ∈ bs) : ∃ a ∈ l, f a = .ok b := by
  induction l generalizing bs with
  | nil =>
    obtain rfl := pure_eq_ok.1 h
    cases hb
  | cons a l ih =>
    rw [List.mapM_cons] at h
    obtain ⟨first, hfirst, h⟩ := bind_eq_ok.1 h
    obtain ⟨others, hothers, h⟩ := bind_eq_ok.1 h
    obtain rfl := pure_eq_ok.1 h
    rcases List.mem_cons.1 hb with rfl | hb
    · exact ⟨a, List.mem_cons_self, hfirst⟩
    · obtain ⟨c, hc, hfc⟩ := ih hothers hb
      exact ⟨c, List.mem_cons_of_mem _ hc, hfc⟩

/-- Steps that went wrong did so at an item. -/
theorem exists_of_mapM_error {f : α → Except ε β} {e : ε} :
    ∀ {l : List α}, l.mapM f = .error e → ∃ a ∈ l, f a = .error e
  | a :: rest, h => by
    rw [List.mapM_cons] at h
    rcases bind_eq_error.1 h with h | ⟨b, -, h⟩
    · exact ⟨a, List.mem_cons_self, h⟩
    · rcases bind_eq_error.1 h with h | ⟨bs, -, h⟩
      · obtain ⟨c, hc, hfault⟩ := exists_of_mapM_error h
        exact ⟨c, List.mem_cons_of_mem a hc, hfault⟩
      · cases h

end Except

/-- A step that goes right for every item gives a result for each. -/
theorem mapM_eq_pure {m : Type → Type} [Monad m] [LawfulMonad m] {α β : Type} {f : α → m β}
    {g : α → β} {l : List α} (h : ∀ a ∈ l, f a = pure (g a)) : l.mapM f = pure (l.map g) := by
  induction l with
  | nil => rfl
  | cons a l ih =>
    rw [List.mapM_cons, h a List.mem_cons_self, ih fun b hb => h b (List.mem_cons_of_mem _ hb)]
    simp

namespace Sql.Planning

variable {α β : Type}

/-- A step of planning that takes one draft to another and gives a result. -/
def Ends (m : Planning α) (d : Draft) (a : α) (d' : Draft) : Prop := m d = .ok (a, d')

theorem ends_bind {m : Planning α} {f : α → Planning β} {d d'' : Draft} {b : β} :
    Ends (m >>= f) d b d'' ↔ ∃ a d', Ends m d a d' ∧ Ends (f a) d' b d'' := by
  change (m d >>= fun p => f p.1 p.2) = .ok (b, d'') ↔ _
  rw [bind_eq_ok]
  constructor
  · rintro ⟨⟨a, d'⟩, hm, hf⟩
    exact ⟨a, d', hm, hf⟩
  · rintro ⟨a, d', hm, hf⟩
    exact ⟨(a, d'), hm, hf⟩

@[simp] theorem ends_pure {a b : α} {d d' : Draft} :
    Ends (pure a) d b d' ↔ a = b ∧ d = d' := by
  change Except.ok (a, d) = .ok (b, d') ↔ _
  simp

@[simp] theorem ends_get {d d' a : Draft} : Ends get d a d' ↔ d = a ∧ d = d' := by
  simp [Ends, get, getThe, MonadStateOf.get, StateT.get, pure, Except.pure]

@[simp] theorem ends_set {s d d' : Draft} {u : PUnit} : Ends (set s) d u d' ↔ s = d' := by
  change Except.ok (PUnit.unit, s) = .ok (u, d') ↔ _
  simp

@[simp] theorem ends_modify {f : Draft → Draft} {d d' : Draft} {u : PUnit} :
    Ends (modify f) d u d' ↔ f d = d' := by
  change Except.ok (PUnit.unit, f d) = .ok (u, d') ↔ _
  simp

@[simp] theorem not_ends_throw {f : Fault} {d d' : Draft} {a : α} :
    ¬ Ends (throw f : Planning α) d a d' := by
  simp [Ends, throw, throwThe, MonadExceptOf.throw, StateT.lift, bind, Except.bind]

@[simp] theorem not_ends_unsupported {what : Inexpressible} {d d' : Draft} {a : α} :
    ¬ Ends (unsupported what : Planning α) d a d' := not_ends_throw

@[simp] theorem ends_discard {m : Planning α} {d d' : Draft} {u : Unit} :
    Ends (discard m) d u d' ↔ ∃ a, Ends m d a d' := by
  change Ends (m >>= fun _ => pure ()) d u d' ↔ _
  rw [ends_bind]
  simp

@[simp] theorem ends_map {f : α → β} {m : Planning α} {d d' : Draft} {b : β} :
    Ends (f <$> m) d b d' ↔ ∃ a, Ends m d a d' ∧ f a = b := by
  change Ends (m >>= fun a => pure (f a)) d b d' ↔ _
  rw [ends_bind]
  simp

/-- A computation without a draft leaves the draft as it is. -/
@[simp] theorem ends_lift {x : Except Fault α} {d d' : Draft} {a : α} :
    Ends (liftM x) d a d' ↔ x = .ok a ∧ d = d' := by
  cases x with
  | error f => simp [Ends, liftM, monadLift, MonadLift.monadLift, StateT.lift, bind, Except.bind]
  | ok b =>
    simp [Ends, liftM, monadLift, MonadLift.monadLift, StateT.lift, bind, Except.bind, pure,
      Except.pure]

@[simp] theorem ends_forM_nil {f : α → Planning PUnit} {d d' : Draft} {u : PUnit} :
    Ends (([] : List α).forM f) d u d' ↔ d = d' := by
  change Ends (pure ⟨⟩) d u d' ↔ _
  simp

theorem ends_forM_cons {f : α → Planning PUnit} {a : α} {as : List α} {d d'' : Draft}
    {u : PUnit} :
    Ends ((a :: as).forM f) d u d'' ↔ ∃ d', Ends (f a) d ⟨⟩ d' ∧ Ends (as.forM f) d' u d'' := by
  change Ends (f a >>= fun _ => as.forM f) d u d'' ↔ _
  rw [ends_bind]
  constructor
  · rintro ⟨_, d', ha, has⟩
    exact ⟨d', ha, has⟩
  · rintro ⟨d', ha, has⟩
    exact ⟨⟨⟩, d', ha, has⟩

/-- Steps for all items relate the drafts before and after them as each step does, and what each
step brings about of its item is there in the end if later steps preserve it. -/
theorem ends_forM {R : Draft → Draft → Prop} {P : α → Draft → Prop} {f : α → Planning PUnit}
    {as : List α} {d d' : Draft} {u : PUnit} (refl : ∀ d, R d d)
    (trans : ∀ {d d' d''}, R d d' → R d' d'' → R d d'')
    (mono : ∀ {a d d'}, R d d' → P a d → P a d')
    (step : ∀ a ∈ as, ∀ {d₁ d₂}, R d d₁ → Ends (f a) d₁ ⟨⟩ d₂ → R d₁ d₂ ∧ P a d₂)
    (h : Ends (as.forM f) d u d') : R d d' ∧ ∀ a ∈ as, P a d' := by
  suffices key : ∀ {d₁}, R d d₁ → Ends (as.forM f) d₁ u d' → R d₁ d' ∧ ∀ a ∈ as, P a d' from
    key (refl d) h
  clear h
  induction as with
  | nil =>
    intro d₁ _ h
    rw [ends_forM_nil] at h
    subst h
    exact ⟨refl d₁, by simp⟩
  | cons a as ih =>
    intro d₁ hd h
    obtain ⟨d₂, ha, has⟩ := ends_forM_cons.1 h
    obtain ⟨hfirst, hitem⟩ := step a List.mem_cons_self hd ha
    obtain ⟨hrest, hitems⟩ := ih (fun b hb => step b (List.mem_cons_of_mem _ hb))
      (trans hd hfirst) has
    refine ⟨trans hfirst hrest, fun b hb => ?_⟩
    rcases List.mem_cons.1 hb with rfl | hb
    · exact mono hrest hitem
    · exact hitems b hb

end Sql.Planning

end MappedQuery

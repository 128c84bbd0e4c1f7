import Mathlib.Algebra.Order.BigOperators.Group.List
import Mathlib.Algebra.Order.Ring.Int
import Mathlib.Data.Fin.Basic
import Mathlib.Data.Finmap
import Mathlib.Data.List.Forall2
import Mathlib.Logic.Relation
/-!
# Partial machines and their runs

A machine whose step may fail, with the rules its runs are reasoned by:
what every step keeps, every run keeps; and what every step meeting a
condition keeps, every run whose steps meet the condition keeps. A
failed step ends a run, so the runs a theorem speaks about are those
that came to a state.
-/

namespace Vans

/-! ## Failing computations -/

section Outcome

variable {X A B : Type}

/-- **A sequence succeeds exactly when both parts do.** -/
theorem bind_eq_ok {x : Except X A} {f : A → Except X B} {b : B} :
    x >>= f = .ok b ↔ ∃ a, x = .ok a ∧ f a = .ok b := by
  cases x with
  | error e => simp [bind, Except.bind]
  | ok a => simp [bind, Except.bind]

@[simp] theorem pure_eq_ok {a b : A} : (pure a : Except X A) = .ok b ↔ a = b := by
  simp [pure, Except.pure]

@[simp] theorem throw_ne_ok {e : X} {a : A} : (throw e : Except X A) ≠ .ok a := by
  simp [throw, throwThe, MonadExceptOf.throw]

theorem pure_ne_error {e : X} {a : A} : (pure a : Except X A) ≠ .error e := by
  simp [pure, Except.pure]

@[simp] theorem ok_bind {a : A} {f : A → Except X B} : (Except.ok a >>= f) = f a := rfl

/-- A computation whose result was looked at. -/
theorem map_eq_ok {x : Except X A} {f : A → B} {b : B} :
    x.map f = .ok b ↔ ∃ a, x = .ok a ∧ f a = b := by
  cases x with
  | error e => simp [Except.map]
  | ok a => simp [Except.map]

/-- Different outcomes are told apart by a look that tells their results
apart. -/
theorem map_injective {f : A → B} (hf : Function.Injective f) :
    Function.Injective (Except.map f : Except X A → Except X B) := by
  intro x y h
  cases x with
  | error e => cases y with
    | error e' => exact congrArg Except.error (Except.error.inj h)
    | ok b => cases h
  | ok a => cases y with
    | error e' => cases h
    | ok b => exact congrArg Except.ok (hf (Except.ok.inj h))

/-- **A sequence fails this way only where a part does.** -/
theorem bind_ne_error {x : Except X A} {f : A → Except X B} {e : X} (hx : x ≠ .error e)
    (hf : ∀ a, x = .ok a → f a ≠ .error e) : x >>= f ≠ .error e := by
  cases x with
  | error e' => exact fun h => hx (congrArg Except.error (Except.error.inj h))
  | ok a => exact hf a rfl

/-- The computation succeeds, and its result satisfies `P`. -/
def Yields (x : Except X A) (P : A → Prop) : Prop := ∃ a, x = .ok a ∧ P a

/-- Whether a computation yields what can be decided can be decided, by
running it. -/
instance Yields.decidable {x : Except X A} {P : A → Prop} [DecidablePred P] :
    Decidable (Yields x P) :=
  match x with
  | .error _ => isFalse (by simp [Yields])
  | .ok a => decidable_of_iff (P a) (by simp [Yields])

namespace Yields

variable {x : Except X A} {P P' : A → Prop} {Q : B → Prop} {f : A → Except X B} {a : A}

theorem pure (h : P a) : Yields (Pure.pure a : Except X A) P := ⟨a, rfl, h⟩

/-- **The rule of sequence.** -/
theorem bind (hx : Yields x P) (hf : ∀ a, x = .ok a → P a → Yields (f a) Q) :
    Yields (x >>= f) Q := by
  obtain ⟨a, rfl, ha⟩ := hx
  exact hf a rfl ha

/-- The rule of consequence. -/
theorem mono (hx : Yields x P) (h : ∀ a, x = .ok a → P a → P' a) : Yields x P' := by
  obtain ⟨a, rfl, ha⟩ := hx
  exact ⟨a, rfl, h a rfl ha⟩

end Yields

/-- **Applying a computation throughout a list succeeds exactly when it
does at each element.** -/
theorem mapM_eq_ok {f : A → Except X B} : ∀ {as : List A} {bs : List B},
    as.mapM f = .ok bs ↔ List.Forall₂ (fun a b => f a = .ok b) as bs := by
  intro as
  induction as with
  | nil =>
      intro bs
      rw [List.mapM_nil, pure_eq_ok, List.forall₂_nil_left_iff, eq_comm]
  | cons a as ih =>
      intro bs
      simp only [List.mapM_cons, bind_eq_ok, pure_eq_ok, ih, List.forall₂_cons_left_iff]
      constructor
      · rintro ⟨b, hb, bs', hbs, rfl⟩
        exact ⟨b, bs', hb, hbs, rfl⟩
      · rintro ⟨b, bs', hb, hbs, rfl⟩
        exact ⟨b, hb, bs', hbs, rfl⟩

variable {S K : Type}

/-- **What each move keeps, a sequence of moves keeps.** -/
theorem reflTransGen_keeps {r : S → S → Prop} {P : S → Prop} (hr : ∀ a b, P a → r a b → P b)
    {a b : S} (h : Relation.ReflTransGen r a b) (ha : P a) : P b := by
  induction h with
  | refl => exact ha
  | tail _ hab ih => exact hr _ _ ih hab

/-- **What each round of a loop keeps, the loop keeps.** The rule is for
a loop over a list, whose rounds may fail. -/
theorem foldlM_keeps {f : S → K → Except X S} {P : S → Prop}
    (hf : ∀ s k s', P s → f s k = .ok s' → P s') :
    ∀ {ks : List K} {s s' : S}, P s → ks.foldlM f s = .ok s' → P s' := by
  intro ks
  induction ks with
  | nil =>
      intro s s' hs h
      obtain rfl := pure_eq_ok.mp h
      exact hs
  | cons k ks ih =>
      intro s s' hs h
      rw [List.foldlM_cons, bind_eq_ok] at h
      obtain ⟨t, ht, hts⟩ := h
      exact ih (hf s k t hs ht) hts

/-- **A loop succeeds where the rounds over its list do.** -/
theorem foldlM_yields_of_mem {f : S → K → Except X S} {P : S → Prop} :
    ∀ {ks : List K} {s : S}, (∀ s, ∀ k ∈ ks, P s → Yields (f s k) P) → P s →
      Yields (ks.foldlM f s) P := by
  intro ks
  induction ks with
  | nil => exact fun _ hs => .pure hs
  | cons k ks ih =>
      intro s hf hs
      rw [List.foldlM_cons]
      exact (hf s k List.mem_cons_self hs).bind fun t _ ht =>
        ih (fun t k' hk' => hf t k' (List.mem_cons_of_mem _ hk')) ht

/-- **A loop succeeds where each of its rounds does.** -/
theorem foldlM_yields {f : S → K → Except X S} {P : S → Prop}
    (hf : ∀ s k, P s → Yields (f s k) P) {ks : List K} {s : S} (hs : P s) :
    Yields (ks.foldlM f s) P :=
  foldlM_yields_of_mem (fun s k _ => hf s k) hs

/-- A loop fails this way only where a round does, which it comes to. -/
theorem foldlM_ne_error {f : S → K → Except X S} {P : S → Prop} {e : X}
    (hf : ∀ s k s', P s → f s k = .ok s' → P s') (hne : ∀ s k, P s → f s k ≠ .error e) :
    ∀ {ks : List K} {s : S}, P s → ks.foldlM f s ≠ .error e := by
  intro ks
  induction ks with
  | nil => exact fun _ => pure_ne_error
  | cons k ks ih =>
      intro s hs
      rw [List.foldlM_cons]
      exact bind_ne_error (hne s k hs) fun t ht => ih (hf s k t hs ht)

/-- **A loop seen through a map** is the loop of what is seen, where each
round is. -/
theorem foldlM_map {T : Type} {f : T → K → Except X T} {g : S → K → Except X S} {π : T → S}
    (hf : ∀ t k, (f t k).map π = g (π t) k) :
    ∀ {ks : List K} {t : T}, (ks.foldlM f t).map π = ks.foldlM g (π t) := by
  intro ks
  induction ks with
  | nil => exact fun {_} => rfl
  | cons k ks ih =>
      intro t
      rw [List.foldlM_cons, List.foldlM_cons, ← hf]
      cases f t k with
      | error e => rfl
      | ok t' => exact ih

/-- A computation run beside an account of it, which it does not read. -/
def audited {T : Type} (f : S → Except X S) (note : S → S → T → T) (p : S × T) :
    Except X (S × T) := do
  let s ← f p.1
  return (s, note p.1 s p.2)

theorem audited_eq_ok {T : Type} {f : S → Except X S} {note : S → S → T → T} {s s' : S} {a b : T} :
    audited f note (s, a) = .ok (s', b) ↔ f s = .ok s' ∧ b = note s s' a := by
  simp only [audited, bind_eq_ok, pure_eq_ok, Prod.mk.injEq]
  constructor
  · rintro ⟨t, ht, rfl, rfl⟩
    exact ⟨ht, rfl⟩
  · rintro ⟨hs, hb⟩
    exact ⟨s', hs, rfl, hb.symm⟩

/-- **The account changes nothing.** -/
theorem audited_map {T : Type} {f : S → Except X S} {note : S → S → T → T} {p : S × T} :
    (audited f note p).map Prod.fst = f p.1 := by
  rw [audited]
  cases f p.1 <;> rfl

/-- What each round of a loop that cannot fail keeps, the loop keeps. -/
theorem foldl_keeps {f : S → K → S} {P : S → Prop} (hf : ∀ s k, P s → P (f s k)) :
    ∀ {ks : List K} {s : S}, P s → P (ks.foldl f s) := by
  intro ks
  induction ks with
  | nil => exact fun hs => hs
  | cons k ks ih =>
      intro s hs
      exact ih (hf s k hs)

end Outcome

/-! ## Machines -/

/-- A machine: what one event does to a state, or why it fails. -/
structure Machine (S E X : Type) where
  /-- The effect of one event. -/
  step : S → E → Except X S

namespace Machine

variable {S E X : Type} {M : Machine S E X}

/-- A run: the events one after another. -/
def run (M : Machine S E X) (s : S) (es : List E) : Except X S :=
  es.foldlM M.step s

/-- Every event of the run meets the condition at the state it finds. -/
def Meets (M : Machine S E X) (C : S → E → Prop) : S → List E → Prop
  | _, [] => True
  | s, e :: es => C s e ∧ ∀ t, M.step s e = .ok t → Meets M C t es

instance decidableForallOk {A : Type} {x : Except X A} {P : A → Prop} [DecidablePred P] :
    Decidable (∀ a, x = .ok a → P a) :=
  match x with
  | .error _ => isTrue (by simp)
  | .ok a => decidable_of_iff (P a) (by simp)

/-- Whether a run meets a condition that can be decided can be decided,
by running it. -/
instance Meets.decidable {C : S → E → Prop} [∀ s e, Decidable (C s e)] :
    ∀ (es : List E) (s : S), Decidable (M.Meets C s es)
  | [], _ => isTrue trivial
  | e :: es, s =>
      have : DecidablePred fun t => M.Meets C t es := fun t => Meets.decidable es t
      inferInstanceAs (Decidable (C s e ∧ ∀ t, M.step s e = .ok t → M.Meets C t es))

@[simp] theorem run_nil {s : S} : M.run s [] = .ok s := rfl

theorem run_cons {s : S} {e : E} {es : List E} :
    M.run s (e :: es) = M.step s e >>= fun t => M.run t es := by
  simp [run, List.foldlM_cons]

/-- A run extended by one event. -/
theorem run_concat {s t : S} {es : List E} {e : E} :
    M.run s (es ++ [e]) = .ok t ↔ ∃ u, M.run s es = .ok u ∧ M.step u e = .ok t := by
  simp [run, List.foldlM_append, bind_eq_ok]

/-- **The invariant rule.** What every step keeps, every run keeps. -/
theorem invariant {P : S → Prop} (hstep : ∀ s e t, P s → M.step s e = .ok t → P t)
    {s t : S} {es : List E} (hs : P s) (h : M.run s es = .ok t) : P t :=
  foldlM_keeps hstep hs h

/-- **The conditional rule.** What every step meeting the condition
keeps, every run whose steps meet it keeps. -/
theorem invariant_of_meets {C : S → E → Prop} {P : S → Prop}
    (hstep : ∀ s e t, P s → C s e → M.step s e = .ok t → P t) :
    ∀ {es : List E} {s t : S}, P s → M.Meets C s es → M.run s es = .ok t → P t := by
  intro es
  induction es with
  | nil =>
      intro s t hs _ h
      rw [run_nil, Except.ok.injEq] at h
      exact h ▸ hs
  | cons e es ih =>
      intro s t hs hC h
      rw [run_cons, bind_eq_ok] at h
      obtain ⟨u, hu, hut⟩ := h
      exact ih (hstep s e u hs hC.1 hu) (hC.2 u hu) hut

/-- **The rule of the first failure.** A run of which some step does not
meet the condition is left with what that step leaves, where every step
keeps it. -/
theorem invariant_of_not_meets {C : S → E → Prop} {P Q : S → Prop}
    (hstep : ∀ s e t, P s → C s e → M.step s e = .ok t → P t)
    (hfail : ∀ s e t, P s → ¬ C s e → M.step s e = .ok t → Q t)
    (hkeep : ∀ s e t, Q s → M.step s e = .ok t → Q t) :
    ∀ {es : List E} {s t : S}, P s → ¬ M.Meets C s es → M.run s es = .ok t → Q t := by
  intro es
  induction es with
  | nil => exact fun _ hC _ => absurd trivial hC
  | cons e es ih =>
      intro s t hs hC h
      rw [run_cons, bind_eq_ok] at h
      obtain ⟨u, hu, hut⟩ := h
      by_cases hmeets : C s e
      · refine ih (hstep s e u hs hmeets hu) (fun hrest => hC ⟨hmeets, fun u' hu' => ?_⟩) hut
        obtain rfl := Except.ok.inj (hu.symm.trans hu')
        exact hrest
      · exact M.invariant hkeep (hfail s e u hs hmeets hu) hut

/-- **A run succeeds where each of its steps does.** -/
theorem run_yields {C : S → E → Prop} {P : S → Prop}
    (hstep : ∀ s e, P s → C s e → Yields (M.step s e) P) :
    ∀ {es : List E} {s : S}, P s → M.Meets C s es → Yields (M.run s es) P := by
  intro es
  induction es with
  | nil => exact fun hs _ => ⟨_, rfl, hs⟩
  | cons e es ih =>
      intro s hs hC
      rw [run_cons]
      exact (hstep s e hs hC.1).bind fun t ht hPt => ih hPt (hC.2 t ht)

/-- **A run seen through a map** is the run of what is seen. -/
theorem run_map {T : Type} {N : Machine T E X} {π : T → S}
    (hstep : ∀ t e, (N.step t e).map π = M.step (π t) e) {t : T} {es : List E} :
    (N.run t es).map π = M.run (π t) es :=
  foldlM_map hstep

/-- A condition on the events alone. -/
theorem meets_of_forall_mem {Q : E → Prop} :
    ∀ {es : List E} {s : S}, (∀ e ∈ es, Q e) → M.Meets (fun _ e => Q e) s es
  | [], _, _ => trivial
  | _ :: _, _, h =>
    ⟨h _ List.mem_cons_self, fun _ _ => meets_of_forall_mem fun e he => h e (List.mem_cons_of_mem _ he)⟩

/-- A weaker condition is met where a stronger one is. -/
theorem meets_mono {C D : S → E → Prop} (h : ∀ s e, C s e → D s e) :
    ∀ {es : List E} {s : S}, M.Meets C s es → M.Meets D s es
  | [], _, _ => trivial
  | _ :: _, _, hC => ⟨h _ _ hC.1, fun _ ht => meets_mono h (hC.2 _ ht)⟩

/-- A run that meets the condition, and goes on to. -/
theorem meets_append {C : S → E → Prop} {es' : List E} :
    ∀ {es : List E} {s t : S}, M.Meets C s es → M.run s es = .ok t → M.Meets C t es' →
      M.Meets C s (es ++ es') := by
  intro es
  induction es with
  | nil =>
      intro s t _ h hC'
      obtain rfl := Except.ok.inj h
      exact hC'
  | cons e es ih =>
      intro s t hC h hC'
      rw [run_cons, bind_eq_ok] at h
      obtain ⟨u, hu, hut⟩ := h
      refine ⟨hC.1, fun u' hu' => ?_⟩
      obtain rfl := Except.ok.inj (hu.symm.trans hu')
      exact ih (hC.2 u hu) hut hC'

/-! ## A machine beside a count -/

/-- The machine, and a count of what its steps do. -/
def tallied (M : Machine S E X) (count : S → S → ℕ) : Machine (S × ℕ) E X where
  step := fun p e => audited (M.step · e) (fun s t n => n + count s t) p

variable {count : S → S → ℕ}

/-- **Counting changes nothing.** -/
theorem tallied_run {s : S} {n : ℕ} {es : List E} :
    ((M.tallied count).run (s, n) es).map Prod.fst = M.run s es := by
  refine run_map fun p e => ?_
  simp only [tallied]
  exact audited_map

/-- **What balances over every step balances over every run.** -/
theorem tallied_balance {P : S → Prop} {f : S → ℕ}
    (hstep : ∀ s e t, P s → M.step s e = .ok t → P t ∧ f t = f s + count s t) {s t : S} {n m : ℕ}
    {es : List E} (hs : P s) (h : (M.tallied count).run (s, n) es = .ok (t, m)) :
    f t + n = f s + m := by
  have hround : ∀ p e q, P p.1 ∧ f p.1 + n = f s + p.2 → (M.tallied count).step p e = .ok q →
      P q.1 ∧ f q.1 + n = f s + q.2 := by
    rintro ⟨u, a⟩ e ⟨v, c⟩ ⟨hu, hbal⟩ hq
    simp only [tallied] at hq
    obtain ⟨hv, rfl⟩ := audited_eq_ok.mp hq
    obtain ⟨hP, hf⟩ := hstep u e v hu hv
    refine ⟨hP, ?_⟩
    dsimp only at hbal ⊢
    omega
  exact ((M.tallied count).invariant hround ⟨hs, rfl⟩ h).2

end Machine

end Vans

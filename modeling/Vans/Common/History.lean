import Mathlib.Data.List.Induction
/-!
# Histories

A history is the list of what was observed, oldest first. Two ways of
speaking about one: that something observed is still owed an answer,
and that everything observed met a condition on what came before it.
Each is stated by splitting the history, and comes with the equation
that says how it moves when the history grows.
-/

namespace Vans

namespace History

universe u

variable {O : Type u} {asks answers : O → Prop} {P P' : List O → O → Prop}
  {log new : List O} {o : O}

/-- Something was asked for, and nothing since has answered it. -/
def Owes (asks answers : O → Prop) (log : List O) : Prop :=
  ∃ before o after, log = before ++ o :: after ∧ asks o ∧ ∀ a ∈ after, ¬ answers a

@[simp] theorem not_owes_nil : ¬ Owes asks answers [] := by
  rintro ⟨before, o, after, h, -⟩
  simp at h

/-- **What is owed after more has been observed**: something new, or
something old that nothing new answers. -/
theorem owes_append : Owes asks answers (log ++ new) ↔
    Owes asks answers new ∨ (Owes asks answers log ∧ ∀ a ∈ new, ¬ answers a) := by
  constructor
  · rintro ⟨before, o, after, h, hask, hno⟩
    rcases List.append_eq_append_iff.mp h with ⟨mid, rfl, hnew⟩ | ⟨mid, rfl, hlater⟩
    · exact .inl ⟨mid, o, after, hnew, hask, hno⟩
    · cases mid with
      | nil => exact .inl ⟨[], o, after, by simpa using hlater.symm, hask, hno⟩
      | cons x mid =>
          obtain ⟨rfl, rfl⟩ := List.cons.inj hlater
          exact .inr ⟨⟨before, o, mid, rfl, hask, fun a ha => hno a (by simp [ha])⟩,
            fun a ha => hno a (by simp [ha])⟩
  · rintro (⟨before, o, after, rfl, hask, hno⟩ | ⟨⟨before, o, after, rfl, hask, hno⟩, hnew⟩)
    · exact ⟨log ++ before, o, after, by simp, hask, hno⟩
    · refine ⟨before, o, after ++ new, by simp, hask, fun a ha => ?_⟩
      rcases List.mem_append.mp ha with ha | ha
      · exact hno a ha
      · exact hnew a ha

theorem owes_singleton : Owes asks answers [o] ↔ asks o := by
  constructor
  · rintro ⟨before, o', after, h, hask, -⟩
    cases before with
    | nil => exact (List.cons.inj h).1 ▸ hask
    | cons x before => simp at h
  · exact fun h => ⟨[], o, [], rfl, h, by simp⟩

theorem owes_concat : Owes asks answers (log ++ [o]) ↔
    asks o ∨ (Owes asks answers log ∧ ¬ answers o) := by
  simp [owes_append, owes_singleton]

/-- What nothing asks for is not owed. -/
theorem not_owes_of_forall (h : ∀ o ∈ log, ¬ asks o) : ¬ Owes asks answers log := by
  rintro ⟨before, o, after, rfl, hask, -⟩
  exact h o (by simp) hask

/-- Where nothing is owed, whatever was asked for has been answered
since. -/
theorem answered (h : ¬ Owes asks answers log) {before after : List O}
    (hlog : log = before ++ o :: after) (hask : asks o) : ∃ a ∈ after, answers a := by
  by_contra hno
  exact h ⟨before, o, after, hlog, hask, fun a ha hans => hno ⟨a, ha, hans⟩⟩

/-- Everything observed met the condition on what came before it. -/
def Always (P : List O → O → Prop) (log : List O) : Prop :=
  ∀ before o after, log = before ++ o :: after → P before o

theorem always_nil : Always P [] := by
  intro before o after h
  simp at h

theorem always_concat : Always P (log ++ [o]) ↔ Always P log ∧ P log o := by
  constructor
  · intro h
    exact ⟨fun before x after hlog => h before x (after ++ [o]) (by simp [hlog]), h log o [] rfl⟩
  · rintro ⟨hlog, ho⟩ before x after h
    rcases List.append_eq_append_iff.mp h with ⟨mid, rfl, hnew⟩ | ⟨mid, rfl, hlater⟩
    · cases mid with
      | nil =>
          obtain ⟨rfl, -⟩ := List.cons.inj hnew
          simpa using ho
      | cons y mid => simp at hnew
    · cases mid with
      | nil =>
          obtain ⟨rfl, -⟩ := List.cons.inj hlater
          simpa using ho
      | cons y mid =>
          obtain ⟨rfl, -⟩ := List.cons.inj hlater
          exact hlog before x mid rfl

/-- A batch whose members each meet the condition where they stand. -/
theorem Always.append (h : Always P log) (hnew : Always (fun before o => P (log ++ before) o) new) :
    Always P (log ++ new) := by
  induction new using List.reverseRecOn with
  | nil => simpa using h
  | append_singleton new o ih =>
      obtain ⟨hnew, ho⟩ := always_concat.mp hnew
      rw [← List.append_assoc]
      exact always_concat.mpr ⟨ih hnew, ho⟩

theorem always_of_forall (h : ∀ before, ∀ o ∈ log, P before o) : Always P log :=
  fun before o _ hlog => h before o (by simp [hlog])

end History

end Vans

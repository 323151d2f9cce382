import SqlDialect.Text.Basic

/-!
# Runs

A text has at most one run of characters of a class at its start: `Text.Run.eq_of_append_eq` says that
a text is cut behind it in one way only.
-/

namespace SqlDialect.Text

/-- A stretch of characters of a class, and what follows it does not start with one of them. -/
structure Run (q : Char → Bool) (run rest : List Char) : Prop where
  all : ∀ c ∈ run, q c = true
  stops : ∀ c, rest.head? = some c → q c = false

namespace Run

variable {q : Char → Bool} {a b a' b' : List Char}

/-- The text up to the first `c`. -/
theorem of_not_mem {c : Char} (h : c ∉ a) : Run (· != c) a (c :: b) := by
  refine ⟨fun d hd => ?_, fun d hd => ?_⟩
  · rw [bne_iff_ne]
    rintro rfl
    exact h hd
  · obtain rfl := Option.some.inj hd
    simp

theorem nil (h : ∀ c, b.head? = some c → q c = false) : Run q [] b :=
  ⟨fun _ hc => absurd hc List.not_mem_nil, h⟩

/-- What follows a run does not go on with it. -/
theorem any_head? (h : Run q a b) : b.head?.any q = false := by
  cases hhead : b.head? with
  | none => rfl
  | some c => exact h.stops c hhead

/-- The longest stretch at the start of a text. -/
theorem of_takeWhile (q : Char → Bool) (text : List Char) :
    Run q (text.takeWhile q) (text.dropWhile q) := by
  refine ⟨List.all_eq_true.1 List.all_takeWhile, fun c hc => ?_⟩
  have := List.head?_dropWhile_not q text
  rw [hc] at this
  simpa using this

theorem takeWhile_eq (h : Run q a b) : (a ++ b).takeWhile q = a := by
  rw [List.takeWhile_append_of_pos h.all]
  cases b with
  | nil => simp
  | cons c b => rw [List.takeWhile_cons_of_neg (by simp [h.stops c rfl]), List.append_nil]

theorem dropWhile_eq (h : Run q a b) : (a ++ b).dropWhile q = b := by
  rw [List.dropWhile_append_of_pos h.all]
  cases b with
  | nil => rfl
  | cons c b => rw [List.dropWhile_cons_of_neg (by simp [h.stops c rfl])]

/-- A text is cut behind a run in one way only. -/
theorem eq_of_append_eq (h : Run q a b) (h' : Run q a' b') (heq : a ++ b = a' ++ b') :
    a = a' ∧ b = b' :=
  ⟨by rw [← h.takeWhile_eq, heq, h'.takeWhile_eq], by rw [← h.dropWhile_eq, heq, h'.dropWhile_eq]⟩

end Run

/-- Of two texts from the same place on, each of which ends with its only `c`, none is longer. -/
theorem eq_of_concat_eq {c : Char} {a b a' b' : List Char} (ha : c ∉ a) (ha' : c ∉ a')
    (heq : a ++ [c] ++ b = a' ++ [c] ++ b') : a = a' := by
  rw [List.append_assoc, List.append_assoc] at heq
  exact ((Run.of_not_mem ha).eq_of_append_eq (.of_not_mem ha') heq).1

end SqlDialect.Text
